import Mathlib.Data.List.Basic
import Mathlib.Tactic.Ring

/-! Byte strings: fixed-width integers, slices and writes in place, and streams of frames.

A buffer is a list of bytes. `splice` overwrites a range without moving what
stands behind it, `slice` reads one back; the lemmas say when a read sees a
write and when it sees past it. Integers are unsigned, in either byte order. A
stream of frames cut at any byte is the frames wholly in front of the cut and a
torn rest, which is shorter than the frame it is the beginning of.
-/

namespace Tinydb.Lib

open List

abbrev Bytes := List UInt8

/-- The low `width` bytes of a number, the least significant one in front. -/
def packLE : (width : Nat) → Nat → Bytes
  | 0, _ => []
  | width + 1, value => UInt8.ofNat value :: packLE width (value / 256)

def unpackLE (bs : Bytes) : Nat := bs.foldr (fun b high => b.toNat + 256 * high) 0

def packBE (width value : Nat) : Bytes := (packLE width value).reverse

def unpackBE (bs : Bytes) : Nat := unpackLE bs.reverse

variable {width value : Nat} {a b : Bytes} {n off : Nat}

@[simp] theorem packLE_length (width value : Nat) : (packLE width value).length = width := by
  induction width generalizing value with
  | zero => rfl
  | succ width ih => rw [packLE, length_cons, ih]

@[simp] theorem packBE_length (width value : Nat) : (packBE width value).length = width := by
  rw [packBE, length_reverse, packLE_length]

theorem unpackLE_packLE (fits : value < 256 ^ width) : unpackLE (packLE width value) = value := by
  induction width generalizing value with
  | zero =>
    have : value = 0 := by simpa using fits
    subst this
    rfl
  | succ width ih =>
    have high : value / 256 < 256 ^ width := by
      rw [Nat.pow_succ] at fits
      exact Nat.div_lt_of_lt_mul (by rwa [Nat.mul_comm] at fits)
    have low : (UInt8.ofNat value).toNat = value % 256 := by simp
    have step : unpackLE (packLE (width + 1) value) =
        (UInt8.ofNat value).toNat + 256 * unpackLE (packLE width (value / 256)) := rfl
    rw [step, ih high, low]
    omega

theorem unpackBE_packBE (fits : value < 256 ^ width) : unpackBE (packBE width value) = value := by
  rw [unpackBE, packBE, reverse_reverse, unpackLE_packLE fits]

theorem unpackLE_lt (bs : Bytes) : unpackLE bs < 256 ^ bs.length := by
  induction bs with
  | nil => decide
  | cons b bs ih =>
    have byte := b.toNat_lt
    have step : unpackLE (b :: bs) = b.toNat + 256 * unpackLE bs := rfl
    rw [step, length_cons, Nat.pow_succ]
    omega

theorem packLE_unpackLE (bs : Bytes) : packLE bs.length (unpackLE bs) = bs := by
  induction bs with
  | nil => rfl
  | cons b bs ih =>
    have step : unpackLE (b :: bs) = b.toNat + 256 * unpackLE bs := rfl
    have byte := b.toNat_lt
    have high : (b.toNat + 256 * unpackLE bs) / 256 = unpackLE bs := by omega
    have low : UInt8.ofNat (b.toNat + 256 * unpackLE bs) = b := by
      apply UInt8.toNat_inj.mp
      rw [UInt8.toNat_ofNat']
      omega
    rw [length_cons, step, packLE, high, ih, low]

theorem packBE_unpackBE {bs : Bytes} (size : bs.length = width) : packBE width (unpackBE bs) = bs := by
  rw [packBE, unpackBE, ← size, ← length_reverse, packLE_unpackLE, reverse_reverse]

theorem unpackBE_lt (bs : Bytes) : unpackBE bs < 256 ^ bs.length := by
  have bound := unpackLE_lt bs.reverse
  rwa [length_reverse] at bound

theorem unpackLE_snoc (bs : Bytes) (b : UInt8) : unpackLE (bs ++ [b]) = unpackLE bs + 256 ^ bs.length * b.toNat := by
  induction bs with
  | nil => simp [unpackLE]
  | cons a bs ih =>
    have whole : unpackLE (a :: (bs ++ [b])) = a.toNat + 256 * unpackLE (bs ++ [b]) := rfl
    have front : unpackLE (a :: bs) = a.toNat + 256 * unpackLE bs := rfl
    rw [cons_append, whole, ih, front, length_cons, Nat.pow_succ]
    ring

theorem unpackBE_cons (b : UInt8) (bs : Bytes) : unpackBE (b :: bs) = b.toNat * 256 ^ bs.length + unpackBE bs := by
  rw [unpackBE, reverse_cons, unpackLE_snoc, length_reverse, unpackBE]
  ring

/-- The `n` bytes from `off` on, fewer where the buffer ends first. -/
def slice (buf : Bytes) (off n : Nat) : Bytes := (buf.drop off).take n

/-- Overwrite the bytes from `off` on. Past the end the buffer grows. -/
def splice (buf : Bytes) (off : Nat) (bs : Bytes) : Bytes := buf.take off ++ bs ++ buf.drop (off + bs.length)

theorem getElem?_slice (buf : Bytes) (off n i : Nat) :
    (slice buf off n)[i]? = if i < n then buf[off + i]? else none := by
  simp [slice, getElem?_take]

theorem getElem?_splice (buf : Bytes) (off : Nat) (bs : Bytes) (i : Nat) (inside : off ≤ buf.length) :
    (splice buf off bs)[i]? = if i < off then buf[i]? else if i < off + bs.length then bs[i - off]? else buf[i]? := by
  have front : (buf.take off).length = off := by simp [inside]
  unfold splice
  by_cases before : i < off
  · rw [append_assoc, getElem?_append_left (by omega), getElem?_take, if_pos before,
      if_pos before]
  · rw [if_neg before]
    by_cases within : i < off + bs.length
    · rw [if_pos within, getElem?_append_left (by simp only [length_append, front]; omega),
        getElem?_append_right (by omega), front]
    · rw [if_neg within, getElem?_append_right (by simp only [length_append, front]; omega),
        length_append, front, getElem?_drop]
      congr 1
      omega

theorem splice_length (buf : Bytes) (off : Nat) (bs : Bytes) (fits : off + bs.length ≤ buf.length) :
    (splice buf off bs).length = buf.length := by
  simp only [splice, length_append, length_take, length_drop]
  omega

theorem splice_length_grow (buf : Bytes) (off : Nat) (bs : Bytes) (inside : off ≤ buf.length)
    (past : buf.length ≤ off + bs.length) : (splice buf off bs).length = off + bs.length := by
  simp only [splice, length_append, length_take, length_drop]
  omega

theorem slice_length (buf : Bytes) (off n : Nat) (fits : off + n ≤ buf.length) : (slice buf off n).length = n := by
  simp only [slice, length_take, length_drop]
  omega

theorem slice_splice_same (buf : Bytes) (off : Nat) (bs : Bytes) (inside : off ≤ buf.length) :
    slice (splice buf off bs) off bs.length = bs := by
  apply ext_getElem?
  intro i
  rw [getElem?_slice]
  split
  next within => rw [getElem?_splice _ _ _ _ inside, if_neg (by omega), if_pos (by omega), Nat.add_sub_cancel_left]
  next past => rw [getElem?_eq_none (by omega)]

theorem slice_splice_other (buf : Bytes) (off : Nat) (bs : Bytes) (at' n : Nat) (inside : off ≤ buf.length)
    (apart : at' + n ≤ off ∨ off + bs.length ≤ at') : slice (splice buf off bs) at' n = slice buf at' n := by
  apply ext_getElem?
  intro i
  rw [getElem?_slice, getElem?_slice]
  split
  next within =>
    rw [getElem?_splice _ _ _ _ inside]
    rcases apart with before | behind
    · rw [if_pos (by omega)]
    · rw [if_neg (by omega), if_neg (by omega)]
  next => rfl

theorem slice_splice_within (buf : Bytes) (off : Nat) (bs : Bytes) (at' n : Nat) (inside : off ≤ buf.length)
    (low : off ≤ at') (high : at' + n ≤ off + bs.length) :
    slice (splice buf off bs) at' n = slice bs (at' - off) n := by
  apply ext_getElem?
  intro i
  rw [getElem?_slice, getElem?_slice]
  split
  next within =>
    rw [getElem?_splice _ _ _ _ inside, if_neg (by omega), if_pos (by omega)]
    congr 1
    omega
  next => rfl

theorem slice_front (size : a.length = n) : slice (a ++ b) 0 n = a := by
  simp [slice, ← size]

theorem slice_all (size : a.length = n) : slice a 0 n = a := by simp [slice, ← size]

theorem slice_skip (n k : Nat) (size : a.length = k) (past : k ≤ off := by decide) :
    slice (a ++ b) off n = slice b (off - k) n := by
  rw [slice, drop_append, drop_eq_nil_of_le (by omega), nil_append, size, slice]

theorem slice_append_left (inside : off + n ≤ a.length) : slice (a ++ b) off n = slice a off n := by
  rw [slice, slice, drop_append_of_le_length (by omega), take_append_of_le_length (by rw [length_drop]; omega)]

theorem slice_part {pre part post : Bytes} (start : pre.length = off) (size : part.length = n) :
    slice (pre ++ (part ++ post)) off n = part := by
  rw [slice_skip n off start (le_refl _), Nat.sub_self, slice_front size]

variable {ρ : Type} (frame : ρ → Bytes)

def joined (records : List ρ) : Bytes := records.flatMap frame

/-- The records whose frames are wholly inside the first `cut` bytes. -/
def whole : (cut : ℕ) → List ρ → List ρ
  | _, [] => []
  | cut, record :: rest =>
    if (frame record).length ≤ cut then record :: whole (cut - (frame record).length) rest else []

def Torn (torn : Bytes) (record : ρ) : Prop := torn <+: frame record ∧ torn.length < (frame record).length

variable {frame}

@[simp] theorem joined_nil : joined frame [] = [] := rfl

@[simp] theorem joined_cons (record : ρ) (rest : List ρ) :
    joined frame (record :: rest) = frame record ++ joined frame rest := rfl

theorem joined_append (early late : List ρ) : joined frame (early ++ late) = joined frame early ++ joined frame late :=
  flatMap_append ..

theorem whole_front (cut : ℕ) (records : List ρ) : whole frame cut records <+: records := by
  induction records generalizing cut with
  | nil => exact List.prefix_rfl
  | cons record rest ih =>
    rw [whole]
    split
    · exact (prefix_cons_inj record).mpr (ih _)
    · exact nil_prefix

theorem whole_joined (records : List ρ) : whole frame (joined frame records).length records = records := by
  induction records with
  | nil => rfl
  | cons record rest ih =>
    have size : (joined frame (record :: rest)).length = (frame record).length + (joined frame rest).length :=
      length_append
    rw [whole, if_pos (by omega), size, Nat.add_sub_cancel_left, ih]

theorem whole_zero (positive : ∀ record, 0 < (frame record).length) (records : List ρ) :
    whole frame 0 records = [] := by
  cases records with
  | nil => rfl
  | cons record rest => exact if_neg (Nat.not_le.mpr (positive record))

theorem whole_torn {torn : Bytes} {record : ρ} (isTorn : Torn frame torn record) (rest : List ρ) :
    whole frame torn.length (record :: rest) = [] := if_neg (Nat.not_le.mpr isTorn.2)

theorem take_joined (cut : ℕ) (records : List ρ) :
    ∃ torn, (joined frame records).take cut = joined frame (whole frame cut records) ++ torn ∧
      (torn = [] ∨ ∃ record rest, records = whole frame cut records ++ record :: rest ∧ Torn frame torn record) := by
  induction records generalizing cut with
  | nil => exact ⟨[], by simp [whole], .inl rfl⟩
  | cons record rest ih =>
    rw [whole]
    split
    case isTrue inside =>
      obtain ⟨torn, cut_eq, ends⟩ := ih (cut - (frame record).length)
      refine ⟨torn, ?_, ends.imp id ?_⟩
      · rw [joined_cons, take_append, take_of_length_le inside, cut_eq, joined_cons, append_assoc]
      · rintro ⟨next, later, same, isTorn⟩
        exact ⟨next, later, by rw [cons_append, ← same], isTorn⟩
    case isFalse outside =>
      have short : cut < (frame record).length := Nat.not_le.mp outside
      refine ⟨(frame record).take cut, ?_, .inr ⟨record, rest, rfl, take_prefix .., ?_⟩⟩
      · rw [joined_cons, take_append_of_le_length short.le]
        rfl
      · rw [length_take]
        omega

end Tinydb.Lib
