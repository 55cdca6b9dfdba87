import Mathlib.Data.List.TakeWhile
import Mathlib.Order.Lattice

/-! Binary search in sorted lists, and where an element goes in one.

A search halves an interval of positions by a test that holds on a front of the
list. It finds how long that front is, so a sorted list is cut at a key into what
is before it and what is not.
-/

namespace Tinydb.Lib

open List

variable {α : Type} {right : α → Bool} {xs : List α} {x : α} {n : ℕ}

/-- Halve the positions from `lo` up to `hi`, going right where the test holds. -/
def bisect (right : α → Bool) (xs : List α) (lo hi : ℕ) : ℕ :=
  if lo < hi then
    match xs[(lo + hi) / 2]? with
    | some x => if right x then bisect right xs ((lo + hi) / 2 + 1) hi else bisect right xs lo ((lo + hi) / 2)
    | none => lo
  else lo
termination_by hi - lo

def Front (right : α → Bool) (xs : List α) : Prop := xs.Pairwise fun a b => right b → right a

theorem Front.test_iff (front : Front right xs) {i : ℕ}
    (here : xs[i]? = some x) : right x ↔ i < (xs.takeWhile right).length := by
  induction xs generalizing i with
  | nil => simp at here
  | cons y rest ih =>
    obtain ⟨before, front⟩ := pairwise_cons.mp front
    cases i with
    | zero =>
      obtain rfl : y = x := by simpa using here
      by_cases holds : right y <;> simp [holds]
    | succ i =>
      have there : rest[i]? = some x := by simpa using here
      by_cases holds : right y
      · rw [takeWhile_cons_of_pos holds, length_cons, Nat.succ_lt_succ_iff]
        exact ih front there
      · have none : ¬ right x := fun later => holds (before x (mem_of_getElem? there) later)
        simp [holds, none]

theorem Front.takeWhile_eq_filter (front : Front right xs) : xs.takeWhile right = xs.filter right := by
  induction xs with
  | nil => rfl
  | cons x rest ih =>
    obtain ⟨before, front⟩ := pairwise_cons.mp front
    by_cases holds : right x
    · rw [takeWhile_cons_of_pos holds, filter_cons_of_pos holds, ih front]
    · have none : rest.filter right = [] := filter_eq_nil_iff.mpr fun y there later => holds (before y there later)
      rw [takeWhile_cons_of_neg holds, filter_cons_of_neg holds, none]

theorem Front.drop_eq_filter (front : Front right xs) :
    xs.drop (xs.takeWhile right).length = xs.filter fun x => !right x := by
  induction xs with
  | nil => rfl
  | cons x rest ih =>
    obtain ⟨before, front⟩ := pairwise_cons.mp front
    by_cases holds : right x
    · rw [takeWhile_cons_of_pos holds, length_cons, drop_succ_cons, filter_cons_of_neg (by simp [holds]),
        ih front]
    · have all : (x :: rest).filter (fun x => !right x) = x :: rest := by
        refine filter_eq_self.mpr fun y there => ?_
        rcases mem_cons.mp there with rfl | there
        · simp [holds]
        · simpa using fun later => holds (before y there later)
      rw [takeWhile_cons_of_neg holds, length_nil, drop_zero, all]

theorem Front.take_eq_filter (front : Front right xs) : xs.take (xs.takeWhile right).length = xs.filter right := by
  rw [← front.takeWhile_eq_filter]
  exact (prefix_iff_eq_take.mp ( takeWhile_prefix right)).symm

theorem insertIdx_eq (inside : n ≤ xs.length) : xs.insertIdx n x = xs.take n ++ x :: xs.drop n := by
  induction n generalizing xs with
  | zero => simp
  | succ n ih =>
    cases xs with
    | nil => simp at inside
    | cons y rest => simp [ih (Nat.le_of_succ_le_succ inside)]

theorem insertIdx_append {ys : List α} (length : xs.length = n) : (xs ++ ys).insertIdx n x = xs ++ x :: ys := by
  rw [insertIdx_eq (by simp [← length]), ← length, take_left, drop_left]

theorem bisect_eq_takeWhile (front : Front right xs) (lo hi : ℕ)
    (low : lo ≤ (xs.takeWhile right).length) (high : (xs.takeWhile right).length ≤ hi) (inside : hi ≤ xs.length) :
    bisect right xs lo hi = (xs.takeWhile right).length := by
  fun_induction bisect right xs lo hi with
  | case1 lo hi less x here holds ih =>
    have := (front.test_iff here).mp holds
    exact ih (by omega) high inside
  | case2 lo hi less x here fails ih =>
    have := mt (front.test_iff here).mpr fails
    exact ih low (by omega) (by omega)
  | case3 lo hi less none =>
    have := getElem?_eq_none_iff.mp none
    omega
  | case4 lo hi done => omega

variable {K V : Type} [LinearOrder K] {entries : List (K × V)} {key : K}

/-- `bisect_left`: how many keys are smaller. -/
def lowerBound (keys : List K) (key : K) : ℕ := bisect (fun k => decide (k < key)) keys 0 keys.length

/-- `bisect_right`: how many keys are not greater. -/
def upperBound (keys : List K) (key : K) : ℕ := bisect (fun k => decide (k ≤ key)) keys 0 keys.length

theorem lowerBound_eq {keys : List K} (sorted : keys.Pairwise (· ≤ ·)) (key : K) :
    lowerBound keys key = (keys.takeWhile fun k => decide (k < key)).length := by
  have front : Front (fun k => decide (k < key)) keys :=
    sorted.imp fun le less => decide_eq_true (le.trans_lt (of_decide_eq_true less))
  exact bisect_eq_takeWhile front 0 keys.length (Nat.zero_le _) (takeWhile_sublist _).length_le le_rfl

theorem upperBound_eq {keys : List K} (sorted : keys.Pairwise (· ≤ ·)) (key : K) :
    upperBound keys key = (keys.takeWhile fun k => decide (k ≤ key)).length := by
  have front : Front (fun k => decide (k ≤ key)) keys :=
    sorted.imp fun le less => decide_eq_true (le.trans (of_decide_eq_true less))
  exact bisect_eq_takeWhile front 0 keys.length (Nat.zero_le _) (takeWhile_sublist _).length_le le_rfl

def Keyed (entries : List (K × V)) : Prop := entries.Pairwise fun a b => a.1 ≤ b.1

def place (entries : List (K × V)) (key : K) (value : V) : List (K × V) :=
  entries.filter (fun e => decide (e.1 ≤ key)) ++ (key, value) :: entries.filter fun e => decide (key < e.1)

theorem Keyed.keys (keyed : Keyed entries) : (entries.map Prod.fst).Pairwise (· ≤ ·) := pairwise_map.mpr keyed

theorem Keyed.lowerFront (keyed : Keyed entries) (key : K) : Front (fun e : K × V => decide (e.1 < key)) entries :=
  keyed.imp fun le less => decide_eq_true (le.trans_lt (of_decide_eq_true less))

theorem Keyed.upperFront (keyed : Keyed entries) (key : K) : Front (fun e : K × V => decide (e.1 ≤ key)) entries :=
  keyed.imp fun le less => decide_eq_true (le.trans (of_decide_eq_true less))

omit [LinearOrder K] in
theorem length_takeWhile_keys (test : K → Bool) :
    ((entries.map Prod.fst).takeWhile test).length = (entries.takeWhile fun e => test e.1).length := by
  rw [takeWhile_map, length_map]
  rfl

namespace Keyed

variable (keyed : Keyed entries) (key)
include keyed

theorem drop_lowerBound :
    entries.drop (lowerBound (entries.map Prod.fst) key) = entries.filter fun e => decide (key ≤ e.1) := by
  rw [lowerBound_eq keyed.keys, length_takeWhile_keys, (keyed.lowerFront key).drop_eq_filter]
  refine filter_congr fun e _ => ?_
  simp [← decide_not]

theorem take_lowerBound :
    entries.take (lowerBound (entries.map Prod.fst) key) = entries.filter fun e => decide (e.1 < key) := by
  rw [lowerBound_eq keyed.keys, length_takeWhile_keys, (keyed.lowerFront key).take_eq_filter]

theorem take_upperBound :
    entries.take (upperBound (entries.map Prod.fst) key) = entries.filter fun e => decide (e.1 ≤ key) := by
  rw [upperBound_eq keyed.keys, length_takeWhile_keys, (keyed.upperFront key).take_eq_filter]

theorem drop_upperBound :
    entries.drop (upperBound (entries.map Prod.fst) key) = entries.filter fun e => decide (key < e.1) := by
  rw [upperBound_eq keyed.keys, length_takeWhile_keys, (keyed.upperFront key).drop_eq_filter]
  refine filter_congr fun e _ => ?_
  simp [← decide_not]

theorem insertIdx_upperBound (value : V) :
    entries.insertIdx (upperBound (entries.map Prod.fst) key) (key, value) = place entries key value := by
  have inside : upperBound (entries.map Prod.fst) key ≤ entries.length := by
    rw [upperBound_eq keyed.keys, length_takeWhile_keys]
    exact (takeWhile_sublist _).length_le
  rw [insertIdx_eq inside, keyed.take_upperBound, keyed.drop_upperBound, place]

theorem place (value : V) : Keyed (place entries key value) := by
  refine pairwise_append.mpr ⟨keyed.filter _, pairwise_cons.mpr ⟨fun e later => ?_, keyed.filter _⟩, ?_⟩
  · exact (of_decide_eq_true (mem_filter.mp later).2).le
  · intro a early b late
    have le := of_decide_eq_true (mem_filter.mp early).2
    rcases mem_cons.mp late with rfl | late
    · exact le
    · exact le.trans (of_decide_eq_true (mem_filter.mp late).2).le

end Keyed

theorem place_append {before after : List (K × V)} (low : ∀ e ∈ before, e.1 ≤ key) (high : ∀ e ∈ after, key < e.1)
    (value : V) :
    Lib.place (before ++ (entries ++ after)) key value = before ++ (Lib.place entries key value ++ after) := by
  have keepLow : before.filter (fun e => decide (e.1 ≤ key)) = before :=
    filter_eq_self.mpr fun e here => decide_eq_true (low e here)
  have dropLow : before.filter (fun e => decide (key < e.1)) = [] :=
    filter_eq_nil_iff.mpr fun e here => by simpa using low e here
  have keepHigh : after.filter (fun e => decide (key < e.1)) = after :=
    filter_eq_self.mpr fun e here => decide_eq_true (high e here)
  have dropHigh : after.filter (fun e => decide (e.1 ≤ key)) = [] :=
    filter_eq_nil_iff.mpr fun e here => by simpa using high e here
  simp only [Lib.place, filter_append, keepLow, dropLow, keepHigh, dropHigh, append_nil, nil_append,
    append_assoc, cons_append]

theorem place_behind (low : ∀ e ∈ entries, e.1 ≤ key) (value : V) :
    Lib.place entries key value = entries ++ [(key, value)] := by
  have keep : entries.filter (fun e => decide (e.1 ≤ key)) = entries :=
    filter_eq_self.mpr fun e here => decide_eq_true (low e here)
  have drop : entries.filter (fun e => decide (key < e.1)) = [] :=
    filter_eq_nil_iff.mpr fun e here => by simpa using low e here
  rw [Lib.place, keep, drop]

theorem place_perm (entries : List (K × V)) (key : K) (value : V) :
    (Lib.place entries key value).Perm ((key, value) :: entries) := by
  refine perm_middle.trans (Perm.cons _ ?_)
  have other : (entries.filter fun e => decide (key < e.1)) = entries.filter fun e => !decide (e.1 ≤ key) :=
    filter_congr fun e _ => by simp [← decide_not]
  rw [other]
  exact filter_append_perm _ entries

theorem length_place (entries : List (K × V)) (key : K) (value : V) :
    (Lib.place entries key value).length = entries.length + 1 := (place_perm entries key value).length_eq

/-- The entries from `lo` to `hi`, as two searches find them. -/
def between (entries : List (K × V)) (lo hi : K) : List (K × V) :=
  entries.filter fun e => decide (lo ≤ e.1) && decide (e.1 ≤ hi)

theorem between_append (before after : List (K × V)) (lo hi : K) :
    between (before ++ after) lo hi = between before lo hi ++ between after lo hi := filter_append ..

theorem between_eq_nil {lo hi : K} (outside : ∀ e ∈ entries, e.1 < lo ∨ hi < e.1) : between entries lo hi = [] := by
  refine filter_eq_nil_iff.mpr fun e among => ?_
  rcases outside e among with below | above
  · simp [below.not_ge]
  · simp [above.not_ge]

theorem between_eq_singleton (distinct : (entries.map Prod.fst).Nodup) {e : K × V} (among : e ∈ entries) :
    between entries e.1 e.1 = [e] := by
  obtain ⟨before, after, rfl⟩ := append_of_mem among
  rw [map_append, map_cons] at distinct
  obtain ⟨-, later, apart⟩ := nodup_append.mp distinct
  have first : between before e.1 e.1 = [] := between_eq_nil fun e' here =>
    lt_or_gt_of_ne (apart e'.1 (mem_map_of_mem here) e.1 (by simp))
  have last : between after e.1 e.1 = [] := between_eq_nil fun e' here =>
    lt_or_gt_of_ne fun same => (nodup_cons.mp later).1 (same ▸ mem_map_of_mem here)
  have own : between (e :: after) e.1 e.1 = e :: between after e.1 e.1 := filter_cons_of_pos (by simp)
  rw [between_append, own, first, last]
  rfl

theorem Keyed.slice_eq (keyed : Keyed entries) (key : K) :
    (entries.take (upperBound (entries.map Prod.fst) key)).drop (lowerBound (entries.map Prod.fst) key) =
      between entries key key := by
  rw [keyed.take_upperBound, between]
  have front : Front (fun e : K × V => decide (e.1 < key)) (entries.filter fun e => decide (e.1 ≤ key)) :=
    (keyed.lowerFront key).filter _
  have length : lowerBound (entries.map Prod.fst) key =
      ((entries.filter fun e => decide (e.1 ≤ key)).takeWhile fun e => decide (e.1 < key)).length := by
    rw [lowerBound_eq keyed.keys, length_takeWhile_keys, (keyed.lowerFront key).takeWhile_eq_filter,
      front.takeWhile_eq_filter, filter_filter]
    congr 1
    refine filter_congr fun e _ => ?_
    by_cases less : e.1 < key
    · simp [less, less.le]
    · simp [less]
  rw [length, front.drop_eq_filter, filter_filter]
  refine filter_congr fun e _ => ?_
  simp [← decide_not]

end Tinydb.Lib
