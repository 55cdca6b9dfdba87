import Tinydb.Jdbc.Codec

/-! What `decodeResultRow` of the driver does with a payload that no server sent.

The length of a value is four bytes put into an `int`, so it may be negative, and the sum of offset
and length may wrap; both slip through the comparison with the length of the payload.
-/

namespace Tinydb.Jdbc

open Lib Protocol List

/-- The data of a value is long enough for its type. -/
def Readable (code : UInt8) (len : ℕ) : Prop :=
  match ParamType.ofCode code with
  | some .null | some .string => True
  | some .int64 | some .float64 => 8 ≤ len
  | some .bool => 1 ≤ len
  | none => False

/-- The offset behind each value that the loop comes to is an `int`. -/
def Contained : (left off : ℕ) → (rest : Bytes) → Prop
  | 0, _, _ => True
  | left + 1, off, code :: a :: b :: c :: d :: rest =>
    off + 5 + shifted [a, b, c, d] < 2 ^ 31 ∧
    (shifted [a, b, c, d] ≤ rest.length → Readable code (shifted [a, b, c, d]) →
      Contained left (off + 5 + shifted [a, b, c, d]) (rest.drop (shifted [a, b, c, d])))
  | _ + 1, off, _ => off + 5 < 2 ^ 31

/-- The sizes of the arrays that the loop of `decodeResultRow` makes for the data of the values. -/
def allocations (lossy : Bytes → String) (payload : Bytes) : (left i : ℕ) → (off : ℤ) → List ℤ
  | 0, _, _ => []
  | left + 1, i, off =>
    match valueHead payload i off with
    | .error _ => []
    | .ok (type, off, len) =>
      len :: match range payload off len >>= decodeValue lossy type with
        | .error _ => []
        | .ok _ => allocations lossy payload left (i + 1) (int (off + len))

/-- As many values as announced, or an `IllegalArgumentException`; and no array is longer than the payload. -/
def Sound (payload : Bytes) (count : ℕ) (outcome : Except JavaExc (List JavaValue)) (sizes : List ℤ) : Prop :=
  ((∃ values, outcome = .ok values ∧ values.length = count) ∨ ∃ msg, outcome = .error (.illegalArgument msg)) ∧
    ∀ size ∈ sizes, size ≤ payload.length

variable {lossy : Bytes → String} {payload : Bytes} {left i off : ℕ} {code a b c d : UInt8} {rest : Bytes}
  {outcome : Except JavaExc (List JavaValue)}

theorem decodeValue_cases (lossy : Bytes → String) (code : UInt8) (data : Bytes) :
    (Readable code data.length ∧ ∃ value, decodeValue lossy code data = .ok value) ∨
      (¬ Readable code data.length ∧ ∃ msg, decodeValue lossy code data = .error (.illegalArgument msg)) := by
  rw [Readable, decodeValue]
  cases ParamType.ofCode code with
  | none => exact .inr ⟨id, _, rfl⟩
  | some type =>
    cases type with
    | null | string => exact .inl ⟨trivial, _, rfl⟩
    | int64 | float64 =>
      by_cases short : data.length < 8
      · exact .inr ⟨by simpa using short, _, if_pos short⟩
      · exact .inl ⟨not_lt.mp short, _, if_neg short⟩
    | bool =>
      cases data with
      | nil => exact .inr ⟨by simp, _, rfl⟩
      | cons byte rest => exact .inl ⟨by simp, _, rfl⟩

theorem int_spec (i : ℤ) : -0x80000000 ≤ int i ∧ int i < 0x80000000 ∧ int i % 0x100000000 = i % 0x100000000 :=
  ⟨Int.le_bmod (by decide), Int.bmod_lt (by decide), Int.bmod_emod⟩

theorem byteAt_outside {off : ℤ} (outside : off < 0 ∨ (payload.length : ℤ) ≤ off) :
    byteAt payload off = .error .indexOutOfBounds := by
  rw [byteAt]
  split_ifs with sign
  · rw [getElem?_eq_none (by omega)]
  · rfl

theorem byteAt_bind {α : Type} {off : ℤ} {next : UInt8 → Except JavaExc α}
    (fails : ∀ byte, next byte = .error .indexOutOfBounds) :
    (byteAt payload off >>= next) = .error .indexOutOfBounds := by
  rw [byteAt]
  cases (if 0 ≤ off then payload[off.toNat]? else none) with
  | none => rfl
  | some byte => exact fails byte

theorem valueHead_short (array : payload.length < 2 ^ 31) (inside : off ≤ payload.length)
    (short : payload.length < off + 5) (i : ℕ) :
    valueHead payload i off = .error (if off + 5 < 2 ^ 31 then
      .illegalArgument ("RESULT_ROW truncated at value " ++ toString i) else .indexOutOfBounds) := by
  have wide := int_spec (off + 5)
  rw [valueHead]
  by_cases small : off + 5 < 2 ^ 31
  · have truncated : (payload.length : ℤ) < int (off + 5) := by omega
    rw [if_pos small, if_pos truncated]
    rfl
  · have passed : ¬ (payload.length : ℤ) < int (off + 5) := by omega
    -- The last byte of the length lies behind the array, whether or not its place wraps.
    have outside : byteAt payload (int (int (off + 1) + 3)) = .error .indexOutOfBounds := by
      have same : int (int ((off : ℤ) + 1) + 3) = int (off + 4) := by rw [int, int, Int.bmod_add_bmod, add_assoc]; rfl
      have last := int_spec (off + 4)
      exact byteAt_outside (by omega)
    rw [if_neg small, if_neg passed]
    refine byteAt_bind fun type => byteAt_bind fun a => byteAt_bind fun b => byteAt_bind fun c => ?_
    simp only [outside]
    rfl

theorem sound_succ_short (array : payload.length < 2 ^ 31) (inside : off ≤ payload.length)
    (short : payload.length < off + 5) :
    Sound payload (left + 1) (decodeValues lossy payload (left + 1) i off)
    (allocations lossy payload (left + 1) i off) ↔
      off + 5 < 2 ^ 31 := by
  rw [decodeValues, allocations, valueHead_short array inside short]
  split_ifs with small
  · exact iff_of_true ⟨.inr ⟨_, rfl⟩, by simp⟩ small
  · refine iff_of_false ?_ small
    rintro ⟨⟨values, answered, -⟩ | ⟨msg, refused⟩, -⟩
    · cases answered
    · cases refused

theorem not_sound {sizes : List ℤ} {e : JavaExc} (raised : outcome = .error e)
    (other : ∀ msg, e ≠ .illegalArgument msg) (count : ℕ) : ¬ Sound payload count outcome sizes := by
  rintro ⟨⟨values, answered, -⟩ | ⟨msg, refused⟩, -⟩
  · cases raised.symm.trans answered
  · exact other msg (Except.error.inj (raised.symm.trans refused))

theorem sound_cons {sizes : List ℤ} {value : JavaValue} {len : ℤ}
    (small : len ≤ payload.length) :
    Sound payload (left + 1) (outcome >>= fun rest => pure (value :: rest)) (len :: sizes) ↔
      Sound payload left outcome sizes := by
  cases outcome with
  | ok values => simp [Sound, small, bind, Except.bind, pure, Except.pure]
  | error e => simp [Sound, small, bind, Except.bind]

theorem sound_succ (array : payload.length < 2 ^ 31) (layout : payload.drop off = code :: a :: b :: c :: d :: rest)
    (later : ∀ i off', off' ≤ payload.length → (Sound payload left (decodeValues lossy payload left i off')
      (allocations lossy payload left i off') ↔ Contained left off' (payload.drop off'))) :
    Sound payload (left + 1) (decodeValues lossy payload (left + 1) i off)
    (allocations lossy payload (left + 1) i off) ↔
      Contained (left + 1) off (payload.drop off) := by
  have size := congrArg List.length layout
  rw [length_drop, length_cons, length_cons, length_cons, length_cons, length_cons] at size
  have bounded : shifted [a, b, c, d] < 2 ^ 32 := by
    rw [shifted_eq]
    exact (unpackBE_lt _).trans_le (by simp)
  have behind : ∀ n, rest.drop n = payload.drop (off + 5 + n) := fun n => by
    rw [← drop_drop, ← drop_drop, layout]
    rfl
  rw [layout, Contained, decodeValues, allocations, valueHead_eq i array layout, behind]
  generalize shifted [a, b, c, d] = len at bounded ⊢
  have sum := int_spec ((off + 5 : ℕ) + int len)
  by_cases small : off + 5 + len < 2 ^ 31
  · have same : int len = len := int_eq (by omega)
    have next : int ((off + 5 : ℕ) + (len : ℤ)) = (off + 5 + len : ℕ) := int_add small
    rw [same, next]
    by_cases fits : len ≤ rest.length
    · have inside : off + 5 + len ≤ payload.length := by omega
      have positive : ¬ (len : ℤ) < 0 := by omega
      have data := slice_length payload (off + 5) len inside
      rw [if_neg (by omega)]
      simp only [ok_bind, if_neg positive, range_eq inside, next]
      obtain ⟨readable, value, decoded⟩ | ⟨unreadable, msg, refused⟩ :=
        decodeValue_cases lossy code (slice payload (off + 5) len)
      · rw [data] at readable
        simp only [decoded, ok_bind]
        rw [sound_cons (by omega), later _ _ inside]
        exact ⟨fun contained => ⟨small, fun _ _ => contained⟩, fun contained => contained.2 fits readable⟩
      · rw [data] at unreadable
        simp only [refused]
        refine iff_of_true ⟨.inr ⟨msg, rfl⟩, ?_⟩ ⟨small, fun _ readable => absurd readable unreadable⟩
        simpa using by omega
    · rw [if_pos (by omega)]
      exact iff_of_true ⟨.inr ⟨_, rfl⟩, by simp⟩ ⟨small, fun short => absurd short fits⟩
  · refine iff_of_false ?_ fun contained => small contained.1
    have low := int_spec len
    rw [if_neg (by omega)]
    by_cases negative : int len < 0
    · refine not_sound (e := .negativeArraySize) ?_ (by simp) _
      simp only [ok_bind, if_pos negative]
      rfl
    · have outside : range payload (off + 5 : ℕ) (int len) = .error .indexOutOfBounds := if_neg (by omega)
      refine not_sound (e := .indexOutOfBounds) ?_ (by simp) _
      simp only [ok_bind, if_neg negative, outside]
      rfl

theorem sound_decodeValues (array : payload.length < 2 ^ 31) (left : ℕ) : ∀ i off, off ≤ payload.length →
    (Sound payload left (decodeValues lossy payload left i off) (allocations lossy payload left i off) ↔
      Contained left off (payload.drop off)) := by
  induction left with
  | zero => exact fun i off _ => iff_of_true ⟨.inl ⟨[], rfl, rfl⟩, by simp [allocations]⟩ trivial
  | succ left ih =>
    intro i off inside
    have size : (payload.drop off).length = payload.length - off := length_drop
    rcases layout : payload.drop off with _ | ⟨code, _ | ⟨a, _ | ⟨b, _ | ⟨c, _ | ⟨d, rest⟩⟩⟩⟩⟩ <;> rw [layout]
      at size <;> simp only [length_cons, length_nil] at size
    iterate 5 exact sound_succ_short array inside (by omega)
    rw [← layout]
    exact sound_succ array layout ih

/-- The sizes of the arrays that `decodeResultRow` makes for the data of the values. -/
def rowAllocations (lossy : Bytes → String) (frame : Frame) : List ℤ :=
  if frame.payload.length < 2 then [] else allocations lossy frame.payload (shifted (frame.payload.take 2)) 0 2

theorem decodeResultRow_sound_iff (lossy : Bytes → String) (frame : Frame) (array : frame.payload.length < 2 ^ 31) :
    Sound frame.payload (shifted (frame.payload.take 2)) (decodeResultRow lossy frame) (rowAllocations lossy frame) ↔
      Contained (shifted (frame.payload.take 2)) 2 (frame.payload.drop 2) := by
  obtain ⟨type, flags, payload⟩ := frame
  rcases payload with _ | ⟨x, _ | ⟨y, rest⟩⟩
  · exact iff_of_true ⟨.inr ⟨_, rfl⟩, by simp [rowAllocations]⟩ trivial
  · refine iff_of_true ⟨.inr ⟨_, rfl⟩, by simp [rowAllocations]⟩ ?_
    show Contained (shifted [x]) 2 []
    cases shifted [x] with
    | zero => trivial
    | succ left => exact (by decide : 2 + 5 < 2 ^ 31)
  · have long : ¬ (x :: y :: rest).length < 2 := by simp
    rw [decodeResultRow, rowAllocations]
    simp only [if_neg long]
    exact sound_decodeValues array _ 0 2 (by simp)

theorem decodeResultRow_sound_text :
    Sound [0, 1, 3, 0, 0, 0, 1, 65] 1 (decodeResultRow (fun _ => "") ⟨0x21, 0, [0, 1, 3, 0, 0, 0, 1, 65]⟩)
    (rowAllocations (fun _ => "") ⟨0x21, 0, [0, 1, 3, 0, 0, 0, 1, 65]⟩) :=
  (decodeResultRow_sound_iff _ ⟨0x21, 0, [0, 1, 3, 0, 0, 0, 1, 65]⟩ (by decide)).mpr ⟨by decide, fun _ _ => trivial⟩

/-- A length with the top bit set is a negative `int`. -/
theorem negative_length_unsound : ¬ ∀ (lossy : Bytes → String) (frame : Frame), frame.payload.length < 2 ^ 31 →
    Sound frame.payload (shifted (frame.payload.take 2)) (decodeResultRow lossy frame)
    (rowAllocations lossy frame) := by
  intro claim
  have raised : decodeResultRow (fun _ => "") ⟨0x21, 0, [0, 1, 3, 0xFF, 0xFF, 0xFF, 0xFF]⟩ =
    .error .negativeArraySize := by
    decide +kernel
  exact not_sound raised (by simp) _ (claim (fun _ => "") ⟨0x21, 0, [0, 1, 3, 0xFF, 0xFF, 0xFF, 0xFF]⟩ (by decide))

end Tinydb.Jdbc
