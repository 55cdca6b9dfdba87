import Mathlib.Algebra.Order.BigOperators.Group.List
import Mathlib.Algebra.Order.Ring.Nat
import Mathlib.Data.List.Perm.Subperm

/-! Rows collected from one side of a join for every row of the other.

Two ways to collect are compared as multisets. Where one never finds more than the
other, they agree as a whole only if they agree on every row. In an outer join a row
that finds nothing is kept with a padding, and then a row may also agree because its
only match looks like the padding.
-/

namespace Tinydb.Lib

open List

variable {α γ : Type} {l : List α} {f g : α → List γ}

/-- The matches of a row, or the padded row if there are none and it is to be kept. -/
def padded (keep : Bool) (pad : γ) (found : List γ) : List γ := if found.isEmpty && keep then [pad] else found

@[simp] theorem padded_false (pad : γ) (found : List γ) : padded false pad found = found := by simp [padded]

@[simp] theorem padded_nil (pad : γ) : padded true pad [] = [pad] := rfl

theorem padded_of_ne {pad : γ} {found : List γ} (some' : found ≠ []) (keep : Bool) : padded keep pad found = found := by
  rw [padded, if_neg]
  simp [some']

theorem padded_ne_nil (pad : γ) (found : List γ) : padded true pad found ≠ [] := by
  by_cases none : found = []
  · simp [none]
  · rwa [padded_of_ne none]

theorem sum_map_eq {f g : α → ℕ} (le : ∀ a ∈ l, g a ≤ f a) (same : (l.map f).sum = (l.map g).sum) :
    ∀ a ∈ l, f a = g a := by
  induction l with
  | nil => exact nofun
  | cons a l ih =>
    obtain ⟨here, others⟩ := forall_mem_cons.mp le
    have rest : (l.map g).sum ≤ (l.map f).sum := sum_le_sum others
    rw [map_cons, map_cons, sum_cons, sum_cons] at same
    refine forall_mem_cons.mpr ⟨by omega, ih others (by omega)⟩

theorem countP_eq_of_perm (p : γ → Bool) (le : ∀ a ∈ l, (g a).countP p ≤ (f a).countP p)
    (perm : (l.flatMap f).Perm (l.flatMap g)) : ∀ a ∈ l, (f a).countP p = (g a).countP p := by
  refine sum_map_eq le ?_
  have total := perm.countP_eq p
  rwa [countP_flatMap, countP_flatMap] at total

theorem length_eq_of_perm (le : ∀ a ∈ l, (g a).length ≤ (f a).length)
    (perm : (l.flatMap f).Perm (l.flatMap g)) : ∀ a ∈ l, (f a).length = (g a).length := by
  refine sum_map_eq le ?_
  have total := perm.length_eq
  rwa [length_flatMap, length_flatMap] at total

theorem perm_flatMap_iff (sub : ∀ a ∈ l, (g a).Subperm (f a)) :
    (l.flatMap f).Perm (l.flatMap g) ↔ ∀ a ∈ l, (f a).Perm (g a) := by
  constructor
  · intro perm a among
    have size := length_eq_of_perm (fun a among => (sub a among).length_le) perm a among
    exact ((sub a among).perm_of_length_le (le_of_eq size)).symm
  · exact Perm.flatMap_left l

theorem perm_padded_iff {pad : α → γ} (looksPadded : γ → Bool)
    (sub : ∀ a ∈ l, (g a).Subperm (f a)) (padding : ∀ a ∈ l, looksPadded (pad a) = true)
    (only : ∀ a ∈ l, ∀ c ∈ f a, looksPadded c = true → c = pad a) :
    (l.flatMap fun a => padded true (pad a) (f a)).Perm (l.flatMap fun a => padded true (pad a) (g a)) ↔
      ∀ a ∈ l, (f a).Perm (g a) ∨ f a = [pad a] := by
  have nonempty (a : α) (among : a ∈ l) (found : g a ≠ []) : f a ≠ [] := fun none =>
    found (subperm_nil.mp (none ▸ sub a among))
  constructor
  · intro perm a among
    have size := length_eq_of_perm (fun a among => ?_) perm a among
    have other := countP_eq_of_perm (fun c => !looksPadded c) (fun a among => ?_) perm a among
    · by_cases found : g a = []
      · rw [found, padded_nil] at size other
        by_cases none : f a = []
        · rw [none, found]
          exact .inl (Perm.refl _)
        · rw [padded_of_ne none] at size other
          obtain ⟨c, single⟩ := length_eq_one_iff.mp size
          rw [single, countP_singleton, countP_singleton, padding a among] at other
          refine .inr ?_
          rw [single, only a among c (by simp [single]) (by simpa using other)]
      · rw [padded_of_ne found, padded_of_ne (nonempty a among found)] at size
        exact .inl ((sub a among).perm_of_length_le (le_of_eq size)).symm
    · by_cases found : g a = []
      · rw [found, padded_nil, countP_singleton, padding a among]
        exact Nat.zero_le _
      · rw [padded_of_ne found, padded_of_ne (nonempty a among found)]
        exact (sub a among).countP_le _
    · by_cases found : g a = []
      · rw [found, padded_nil]
        by_cases none : f a = []
        · rw [none, padded_nil]
        · rw [padded_of_ne none]
          exact length_pos_of_ne_nil none
      · rw [padded_of_ne found, padded_of_ne (nonempty a among found)]
        exact (sub a among).length_le
  · intro each
    refine Perm.flatMap_left l fun a among => ?_
    rcases each a among with perm | single
    · by_cases found : g a = []
      · rw [found] at perm ⊢
        rw [perm.eq_nil]
      · rwa [padded_of_ne found, padded_of_ne (nonempty a among found)]
    · by_cases found : g a = []
      · rw [single, found]
        exact Perm.refl _
      · have same : (g a).Perm [pad a] := by
          refine (sub a among).perm_of_length_le ?_ |>.trans (by rw [single])
          rw [single]
          exact length_pos_of_ne_nil found
        rw [single, padded_of_ne found]
        exact same.symm

end Tinydb.Lib
