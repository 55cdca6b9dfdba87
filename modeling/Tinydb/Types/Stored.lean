import Tinydb.Types.RoundTrip

/-! What a row becomes when it is stored.

A column converts some values and refuses others. What it accepts is written by the
codec and read back; `Survives` says that this changes nothing. It does for INT, TEXT,
BOOL, BLOB, DATE and TIME columns. For the types whose objects belong to the runtime
it depends on the value.
-/

namespace Tinydb.Types

open Lib List Types.Runtime

variable {X : Type} [Runtime X] {value : Value X} {tag : TypeTag} {payload bs : Bytes} {size : ℕ}
  {means : Bytes → Except Exc (Value X)} {stored : Value X}

/-- Wherever the bytes stand, reading them ends behind them and gives the same. -/
def Framed (bs : Bytes) (outcome : Except Exc (Value X)) : Prop :=
  ∀ before after, decodeValue (before ++ (bs ++ after)) before.length = outcome.map (·, before.length + bs.length)

def PacksDoubles (X : Type) [Runtime X] : Prop :=
  ∀ (value : Value X) (bs : Bytes), packDouble value = .ok bs → bs.length = 8

/-- The size of a payload, for the types where it is always the same, and what the payload stands for. -/
def fixed? : TypeTag → Option (ℕ × (Bytes → Except Exc (Value X)))
  | .null => some (0, fun _ => .ok .none)
  | .int => some (8, fun bs => .ok (.int (unpackSigned 8 bs)))
  | .float => some (8, fun bs => .ok (.foreign (unpackDouble bs)))
  | .date => some (4, fun bs => .foreign <$> ofDays (unpackSigned 4 bs))
  | .time => some (8, fun bs => .foreign <$> ofMicros (unpackLE bs))
  | .datetime => some (8, fun bs => .foreign <$> ofEpochMicros (unpackSigned 8 bs))
  | _ => none

def prefixed? : TypeTag → Option (Bytes → Except Exc (Value X))
  | .text => some fun bs => .str <$> ofUtf8 bs
  | .decimal => some fun bs => ofUtf8 bs >>= fun text => .foreign <$> ofDecimalText text
  | .blob => some fun bs => .ok (.bytes bs)
  | .json => some fun bs => ofUtf8 bs >>= jsonLoads
  | _ => none

omit [Runtime X] in
theorem length_of_lengthPrefixed (packed : lengthPrefixed payload = .ok bs) : payload.length < 2 ^ 32 := by
  rw [lengthPrefixed] at packed
  split_ifs at packed with short
  exact short

theorem length_of_fixed (fixed : fixed? tag = some (size, means))
    (packs : tag = .float → PacksDoubles X) (packed : encodePayload value tag = .ok payload) :
    payload.length = size := by
  cases tag <;> cases fixed
  case null => cases value <;> cases packed; rfl
  case int =>
    cases value
    case none => cases packed
    all_goals
      obtain ⟨i, -, packed⟩ := bind_ok_iff.mp packed
      exact packSigned_length packed
  case float =>
    cases value
    case none => cases packed
    all_goals exact packs rfl _ _ packed
  all_goals
    cases value
    case foreign x =>
      simp only [encodePayload] at packed
      first
      | split_ifs at packed
      | split at packed
      all_goals first
        | exact packSigned_length packed
        | (rw [← Except.ok.inj packed]; exact packLE_length ..)
        | cases packed
    all_goals cases packed

theorem prefixed_of_encodePayload (pre : prefixed? tag = some means)
    (packed : encodePayload value tag = .ok payload) : ∃ content, lengthPrefixed content = .ok payload := by
  cases tag <;> cases pre
  case json =>
    cases value
    case none => exact ⟨_, packed⟩
    all_goals
      obtain ⟨text, -, packed⟩ := bind_ok_iff.mp packed
      exact ⟨_, packed⟩
  case decimal =>
    cases value
    case foreign x =>
      simp only [encodePayload] at packed
      split_ifs at packed
      exact ⟨_, packed⟩
    all_goals cases packed
  all_goals cases value <;> first | exact ⟨_, packed⟩ | cases packed

omit [Runtime X] in
theorem bind_return_map {α : Type} (r : Except Exc α) (f : α → Value X) (n : ℕ) :
    (r >>= fun a => .ok (f a, n)) = (f <$> r).map (·, n) := by
  cases r <;> rfl

theorem framed_of_fixed (fixed : fixed? tag = some (size, means))
    (sized : payload.length = size) : Framed (tag.byte :: payload) (means payload) := by
  intro before after
  have read := unpackFrom_part (before ++ [tag.byte]) payload after
  rw [sized, length_append, length_singleton] at read
  rw [tagged_part, decodeValue, tag_at, length_cons, sized, Nat.add_comm size, ← Nat.add_assoc]
  cases tag <;> cases fixed <;> simp only [TypeTag.ofByte_byte, read]
  case date => exact bind_return_map (ofDays (unpackSigned 4 payload)) .foreign _
  case time => exact bind_return_map (ofMicros (unpackLE payload)) .foreign _
  case datetime => exact bind_return_map (ofEpochMicros (unpackSigned 8 payload)) .foreign _
  all_goals rfl

theorem framed_of_prefixed (pre : prefixed? tag = some means) {content : Bytes}
    (packed : lengthPrefixed content = .ok payload) : Framed (tag.byte :: payload) (means content) := by
  have short := length_of_lengthPrefixed packed
  rw [lengthPrefixed, if_pos short] at packed
  obtain rfl := Except.ok.inj packed
  intro before after
  have stop : before.length + (tag.byte :: (packLE 4 content.length ++ content)).length =
    before.length + 1 + 4 + content.length := by
    rw [length_cons, length_append, packLE_length]
    omega
  rw [stop, tagged_part, decodeValue, tag_at]
  cases tag <;> cases pre <;> simp only [TypeTag.ofByte_byte, decodePrefixed_tagged short]
  case blob => rfl
  case text => exact bind_return_map (ofUtf8 content) .str _
  case decimal =>
    show ofUtf8 content >>= _ = _
    cases ofUtf8 content with
    | error e => rfl
    | ok text => exact bind_return_map (ofDecimalText text) .foreign _
  case json =>
    show ofUtf8 content >>= _ = _
    cases ofUtf8 content with
    | error e => rfl
    | ok text => exact (bind_return_map (jsonLoads text) id _).trans (by rw [id_map]; rfl)

theorem delimited_of_encodeValue (known : ∃ bs, StoredAs value tag bs) (encoded : encodeValue value tag = .ok bs) :
    Delimited value bs := by
  obtain ⟨bs', stored⟩ := known
  cases stored.encoded.symm.trans encoded
  exact stored.delimited

theorem framed_of_encodeValue (packs : tag = .float → PacksDoubles X) (encoded : encodeValue value tag = .ok bs) :
    ∃ outcome : Except Exc (Value X), Framed bs outcome := by
  obtain ⟨payload, packed, rfl⟩ := bind_return_iff.mp encoded
  cases fixed : fixed? (X := X) tag with
  | some shape => exact ⟨_, framed_of_fixed fixed (length_of_fixed fixed packs packed)⟩
  | none =>
    cases pre : prefixed? (X := X) tag with
    | some means =>
      obtain ⟨content, shape⟩ := prefixed_of_encodePayload pre packed
      exact ⟨_, framed_of_prefixed pre shape⟩
    | none =>
      -- BOOL is the only type left
      cases tag <;> cases fixed <;> cases pre
      cases value with
      | bool b => exact ⟨.ok (.bool b), delimited_of_encodeValue (storedAs_bool b) encoded⟩
      | none | int | str | bytes | foreign | typed => cases packed

/-- The conversions of `coerce_value`. -/
def converted : TypeTag → Value X → Value X
  | .int, .foreign x => (integral x).elim (.foreign x) .int
  | .float, .int i =>
    match ofInt i with
    | .ok x => .foreign x
    | .error _ => .int i
  | .decimal, .int i => .foreign (decimalOfInt i)
  | _, value => value

def coerced (tag : TypeTag) (value : Value X) : Value X := converted tag (unwrap value)

/-- The bytes of a value that needs no conversion; NULL has a tag of its own. -/
def asIs (value : Value X) (tag : TypeTag) : Except Exc Bytes :=
  match value with
  | .none => encodeValue (X := X) .none .null
  | value => encodeValue value tag

theorem asIs_of_ne (real : value ≠ .none) : asIs value tag = encodeValue value tag := by
  cases value with
  | none => exact (real rfl).elim
  | bool | int | str | bytes | foreign | typed => rfl

theorem encodeValue_of_json (real : value ≠ .none) (accepted : coerceValue value .json = .ok bs) :
    encodeValue value .json = .ok bs := by
  cases value with
  | none => exact (real rfl).elim
  | bool | int | str | bytes | foreign | typed =>
    simp only [coerceValue] at accepted
    split_ifs at accepted
    split at accepted
    · cases accepted
    · exact accepted

theorem asIs_converted (real : value ≠ .none) (accepted : coerceValue value tag = .ok bs) :
    asIs (converted tag value) tag = .ok bs := by
  by_cases json : tag = .json
  · subst json
    have encoded := encodeValue_of_json real accepted
    cases value with
    | none => exact (real rfl).elim
    | bool | int | str | bytes | foreign | typed => exact encoded
  cases value with
  | none => exact (real rfl).elim
  | bool | str | bytes | typed =>
    cases tag
    case json => exact (json rfl).elim
    all_goals first | exact accepted | cases accepted
  | int i =>
    cases tag
    case float =>
      obtain ⟨x, made, packed⟩ := bind_ok_iff.mp accepted
      rw [converted, made]
      exact packed
    case json => exact (json rfl).elim
    case int | decimal => exact accepted
    all_goals cases accepted
  | foreign x =>
    cases tag
    case int =>
      simp only [coerceValue] at accepted
      split_ifs at accepted
      rw [converted]
      cases whole : integral x with
      | none =>
        rw [whole] at accepted
        cases accepted
      | some i =>
        rw [whole] at accepted
        exact accepted
    case json => exact (json rfl).elim
    case null | text | bool | blob => cases accepted
    all_goals
      simp only [coerceValue] at accepted
      split_ifs at accepted
      exact accepted

theorem asIs_coerced (encoded : encodeColumn value tag = .ok bs) : asIs (coerced tag value) tag = .ok bs := by
  rw [encodeColumn] at encoded
  rw [coerced]
  split at encoded
  case h_1 null =>
    rw [null]
    cases tag <;> exact encoded
  case h_2 real => exact asIs_converted real encoded

theorem encodeValue_coerced (encoded : encodeColumn value tag = .ok bs) :
    ∃ tag', (tag' = .float → tag = .float) ∧ encodeValue (coerced tag value) tag' = .ok bs := by
  have written := asIs_coerced encoded
  by_cases null : coerced tag value = .none
  · rw [null] at written ⊢
    exact ⟨.null, by simp, written⟩
  · exact ⟨tag, id, asIs_of_ne null ▸ written⟩

/-- A column that is given `value` is read back as `stored`. -/
def StoredValue (value : Value X) (tag : TypeTag) (stored : Value X) : Prop :=
  ∃ bs, encodeColumn value tag = .ok bs ∧ Delimited stored bs

def Survives (tag : TypeTag) (value : Value X) : Prop := ∃ bs, asIs value tag = .ok bs ∧ Delimited value bs

/-- Reading back changes a value only towards a normal form: the value read is lower in some rank. -/
def Normalizing (rank : TypeTag → Value X → ℕ) : Prop :=
  ∀ (tag : TypeTag) (value stored : Value X) (bs : Bytes), asIs value tag = .ok bs → Delimited stored bs →
    stored = value ∨ rank tag stored < rank tag value

theorem Delimited.unique {first second : Value X} (one : Delimited first bs) (other : Delimited second bs) :
    first = second :=
  (Prod.mk.inj (Except.ok.inj ((one [] []).symm.trans (other [] [])))).1

theorem StoredValue.eq_coerced_iff (becomes : StoredValue value tag stored) :
    stored = coerced tag value ↔ Survives tag (coerced tag value) := by
  obtain ⟨bs, encoded, read⟩ := becomes
  constructor
  · rintro rfl
    exact ⟨bs, asIs_coerced encoded, read⟩
  · rintro ⟨bs', encoded', read'⟩
    cases (asIs_coerced encoded).symm.trans encoded'
    exact read.unique read'

theorem StoredValue.rank {rank : TypeTag → Value X → ℕ} (normal : Normalizing rank)
    (becomes : StoredValue value tag stored) :
    stored = coerced tag value ∨ rank tag stored < rank tag (coerced tag value) :=
  let ⟨bs, encoded, read⟩ := becomes
  normal tag _ stored bs (asIs_coerced encoded) read

def SafeTag (X : Type) [Runtime X] (tag : TypeTag) : Prop :=
  ∀ (value : Value X) (bs : Bytes), encodeColumn value tag = .ok bs → Survives tag (coerced tag value)

theorem survives_none (tag : TypeTag) : Survives tag (.none : Value X) :=
    ⟨_, storedAs_null.encoded, storedAs_null.delimited⟩

def ReadsBack (X : Type) [Runtime X] (tag : TypeTag) : Prop :=
  ∀ (value : Value X) (bs : Bytes), encodeValue value tag = .ok bs → Delimited value bs

theorem ReadsBack.safe (reads : ReadsBack X tag) : SafeTag X tag := by
  intro value bs encoded
  have written := asIs_coerced encoded
  by_cases null : coerced tag value = .none
  · rw [null]
    exact survives_none tag
  · exact ⟨bs, written, reads _ bs (asIs_of_ne null ▸ written)⟩

theorem readsBack_int : ReadsBack X .int := by
  intro value bs encoded
  obtain ⟨payload, packed, -⟩ := bind_ok_iff.mp encoded
  cases value with
  | int i =>
    obtain ⟨j, checked, -⟩ := bind_ok_iff.mp packed
    rw [checkIntRange] at checked
    split_ifs at checked with range
    exact delimited_of_encodeValue (storedAs_int range) encoded
  | none | bool | str | bytes | foreign | typed => cases packed

theorem readsBack_text : ReadsBack X .text := by
  intro value bs encoded
  obtain ⟨payload, packed, -⟩ := bind_ok_iff.mp encoded
  cases value with
  | str s => exact delimited_of_encodeValue (storedAs_text (length_of_lengthPrefixed packed)) encoded
  | none | bool | int | bytes | foreign | typed => cases packed

theorem readsBack_blob : ReadsBack X .blob := by
  intro value bs encoded
  obtain ⟨payload, packed, -⟩ := bind_ok_iff.mp encoded
  cases value with
  | bytes bs => exact delimited_of_encodeValue (storedAs_blob (length_of_lengthPrefixed packed)) encoded
  | none | bool | int | str | foreign | typed => cases packed

theorem readsBack_bool : ReadsBack X .bool := by
  intro value bs encoded
  obtain ⟨payload, packed, -⟩ := bind_ok_iff.mp encoded
  cases value with
  | bool b => exact delimited_of_encodeValue (storedAs_bool b) encoded
  | none | int | str | bytes | foreign | typed => cases packed

theorem readsBack_null : ReadsBack X .null := by
  intro value bs encoded
  obtain ⟨payload, packed, -⟩ := bind_ok_iff.mp encoded
  cases value with
  | none => exact delimited_of_encodeValue ⟨_, storedAs_null⟩ encoded
  | bool | int | str | bytes | foreign | typed => cases packed

def coercedRow (tags : List TypeTag) (row : Row X) : Row X := zipWith coerced tags row

/-- A row beside the bytes of its columns. -/
inductive EncodedRow : Row X → List TypeTag → Bytes → Prop
  | nil : EncodedRow [] [] []
  | cons {value : Value X} {values : Row X} {tag : TypeTag} {tags : List TypeTag} {column rest : Bytes}
      (first : encodeColumn value tag = .ok column) (others : EncodedRow values tags rest) :
      EncodedRow (value :: values) (tag :: tags) (column ++ rest)

theorem encodedRow {tags : List TypeTag} {row : Row X} {blob : Bytes} (encoded : encodeRowCoerced row tags = .ok blob) :
    EncodedRow row tags blob := by
  rw [encodeRowCoerced] at encoded
  split_ifs at encoded with sized
  induction tags generalizing row blob with
  | nil =>
    obtain rfl := length_eq_zero_iff.mp sized
    cases encoded
    exact .nil
  | cons tag tags ih =>
    obtain ⟨value, values, rfl⟩ := exists_cons_of_length_eq_add_one sized
    obtain ⟨column, first, encoded⟩ := bind_ok_iff.mp encoded
    obtain ⟨rest, others, rfl⟩ := bind_return_iff.mp encoded
    exact .cons first (ih (by simpa using sized) others)

theorem EncodedRow.survive {tags : List TypeTag} {given : Row X} {record : Bytes}
    (encoded : EncodedRow given tags record)
    (safe : ∀ tag ∈ tags, SafeTag X tag) : Forall₂ Survives tags (coercedRow tags given) := by
  induction encoded with
  | nil => exact .nil
  | cons first _ ih =>
    rw [forall_mem_cons] at safe
    exact .cons (safe.1 _ _ first) (ih safe.2)

/-- Column by column. -/
inductive StoredRow : Row X → List TypeTag → Row X → Prop
  | nil : StoredRow [] [] []
  | cons {value stored : Value X} {tag : TypeTag} {values rest : Row X} {tags : List TypeTag}
      (first : StoredValue value tag stored) (others : StoredRow values tags rest) :
      StoredRow (value :: values) (tag :: tags) (stored :: rest)

variable {row stored : Row X} {tags : List TypeTag} {blob : Bytes}

theorem StoredRow.eq_coercedRow_iff (becomes : StoredRow row tags stored) :
    stored = coercedRow tags row ↔ Forall₂ Survives tags (coercedRow tags row) := by
  induction becomes with
  | nil => exact ⟨fun _ => .nil, fun _ => rfl⟩
  | cons first _ ih =>
    rw [coercedRow, zipWith_cons_cons, List.cons.injEq, forall₂_cons, first.eq_coerced_iff]
    exact and_congr_right fun _ => ih

def rowRank (rank : TypeTag → Value X → ℕ) (tags : List TypeTag) (row : Row X) : ℕ := (zipWith rank tags row).sum

theorem StoredRow.rank {rank : TypeTag → Value X → ℕ} (normal : Normalizing rank)
    (becomes : StoredRow row tags stored) :
    stored = coercedRow tags row ∨ rowRank rank tags stored < rowRank rank tags (coercedRow tags row) := by
  induction becomes with
  | nil => exact .inl rfl
  | cons first _ ih =>
    simp only [rowRank, coercedRow, zipWith_cons_cons, sum_cons] at ih ⊢
    rcases first.rank normal with rfl | lower <;> rcases ih with rfl | less
    · exact .inl rfl
    · exact .inr (by omega)
    · exact .inr (by omega)
    · exact .inr (by omega)

theorem framed_of_encodeColumn (packs : tag = .float → PacksDoubles X) (encoded : encodeColumn value tag = .ok bs) :
    ∃ outcome : Except Exc (Value X), Framed bs outcome := by
  obtain ⟨tag', float, written⟩ := encodeValue_coerced encoded
  exact framed_of_encodeValue (packs ∘ float) written

theorem length_encodeColumn_le (encoded : encodeColumn value tag = .ok bs)
    (fixed : fixed? tag = some (size, means)) (packs : tag = .float → PacksDoubles X) : bs.length ≤ size + 1 := by
  have written := asIs_coerced encoded
  by_cases null : coerced tag value = .none
  · rw [null] at written
    cases storedAs_null.encoded.symm.trans written
    exact Nat.succ_le_succ (Nat.zero_le _)
  · rw [asIs_of_ne null] at written
    obtain ⟨payload, packed, rfl⟩ := bind_return_iff.mp written
    rw [length_cons, length_of_fixed fixed packs packed]

theorem EncodedRow.decodeColumns_iff (encoded : EncodedRow row tags blob) (packs : .float ∈ tags → PacksDoubles X)
    (before after : Bytes) (stored : Row X) (stop : ℕ) :
    decodeColumns (before ++ (blob ++ after)) before.length tags = .ok (stored, stop) ↔
      StoredRow row tags stored ∧ stop = before.length + blob.length := by
  induction encoded generalizing before stored stop with
  | nil =>
    rw [decodeColumns]
    constructor
    · intro same
      cases same
      exact ⟨.nil, rfl⟩
    · rintro ⟨becomes, rfl⟩
      cases becomes
      rfl
  | @cons value values tag tags column rest first _ ih =>
    obtain ⟨outcome, framed⟩ := framed_of_encodeColumn (fun float => packs (by simp [float])) first
    have front := framed before (rest ++ after)
    have behind {others : Row X} {stop : ℕ} :
        decodeColumns (before ++ (column ++ (rest ++ after))) (before.length + column.length) tags =
        .ok (others, stop) ↔
          StoredRow values tags others ∧ stop = before.length + column.length + rest.length := by
      have deeper := ih (fun float => packs (by simp [float])) (before ++ column) others stop
      rwa [length_append, append_assoc] at deeper
    rw [append_assoc, decodeColumns, front, length_append, ← Nat.add_assoc]
    constructor
    · intro decoded
      obtain ⟨⟨here, next⟩, read, decoded⟩ := bind_ok_iff.mp decoded
      cases outcome with
      | error e => cases read
      | ok value' =>
        cases read
        obtain ⟨⟨later, stop'⟩, deeper, ⟨⟩⟩ := bind_ok_iff.mp decoded
        obtain ⟨becomes, ended⟩ := behind.mp deeper
        exact ⟨.cons ⟨column, first, framed⟩ becomes, ended⟩
    · rintro ⟨becomes, rfl⟩
      cases becomes with
      | cons here later =>
        obtain ⟨column', encoded', read⟩ := here
        cases first.symm.trans encoded'
        rw [← front, read before (rest ++ after)]
        exact bind_ok_iff.mpr ⟨_, rfl, bind_ok_iff.mpr ⟨_, behind.mpr ⟨later, rfl⟩, rfl⟩⟩

theorem ne_nil_of_encodeValue (encoded : encodeValue value tag = .ok bs) : bs ≠ [] := by
  obtain ⟨payload, -, rfl⟩ := bind_return_iff.mp encoded
  exact cons_ne_nil _ _

theorem ne_nil_of_encodeRow (columns : tags ≠ []) (encoded : encodeRowCoerced row tags = .ok blob) : blob ≠ [] := by
  cases encodedRow encoded with
  | nil => exact (columns rfl).elim
  | cons first _ =>
    refine fun nothing => ?_
    obtain ⟨tag', -, written⟩ := encodeValue_coerced first
    exact ne_nil_of_encodeValue written (append_eq_nil_iff.mp nothing).1

theorem decodeRow_iff (packs : .float ∈ tags → PacksDoubles X) (encoded : encodeRowCoerced row tags = .ok blob) :
    decodeRow blob tags = .ok stored ↔ StoredRow row tags stored := by
  have whole (stop : ℕ) := (encodedRow encoded).decodeColumns_iff packs [] [] stored stop
  simp only [nil_append, append_nil, length_nil, Nat.zero_add] at whole
  rw [decodeRow, bind_ok_iff]
  constructor
  · rintro ⟨⟨values, stop⟩, decoded, checked⟩
    dsimp only at checked
    split_ifs at checked with ends
    cases checked
    exact ((whole stop).mp decoded).1
  · intro becomes
    exact ⟨_, (whole _).mpr ⟨becomes, rfl⟩, if_pos rfl⟩

variable {Y : Type} [Others Y]

theorem readsBack_date (apart : ∀ y, kind (.other y : Object Y) ≠ .date) : ReadsBack (Object Y) .date := by
  intro value bs encoded
  obtain ⟨payload, packed, -⟩ := bind_ok_iff.mp encoded
  cases value with
  | foreign x =>
    cases x with
    | date d => exact delimited_of_encodeValue (storedAs_date d) encoded
    | time t => cases packed
    | other y =>
      simp only [encodePayload] at packed
      split at packed
      case h_1 kind => exact (apart y kind).elim
      all_goals cases packed
  | none | bool | int | str | bytes | typed => cases packed

theorem readsBack_time (apart : ∀ y, kind (.other y : Object Y) ≠ .time) : ReadsBack (Object Y) .time := by
  intro value bs encoded
  obtain ⟨payload, packed, -⟩ := bind_ok_iff.mp encoded
  cases value with
  | foreign x =>
    cases x with
    | time t => exact delimited_of_encodeValue (storedAs_time t) encoded
    | date d => cases packed
    | other y =>
      simp only [encodePayload] at packed
      split_ifs at packed with kind
      exact (apart y kind).elim
  | none | bool | int | str | bytes | typed => cases packed

end Tinydb.Types
