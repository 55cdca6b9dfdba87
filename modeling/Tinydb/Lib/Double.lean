import Mathlib.Data.Int.ConditionallyCompleteOrder
import Mathlib.Data.Int.Log
import Mathlib.Data.Rat.Floor
import Mathlib.Tactic.Linarith

/-! Arithmetic of binary64 numbers, as rational numbers.

The result of an operation is the exact result rounded to 53 significant bits, ties to
even. Numbers too large or too small for the format do not occur here.
-/

namespace Tinydb.Lib

def nearestEven (q : ℚ) : ℤ :=
  let low := ⌊q⌋
  if 2 * (q - low) < 1 then low
  else if 1 < 2 * (q - low) then low + 1
  else if low % 2 = 0 then low
  else low + 1

def ulp (q : ℚ) : ℚ := 2 ^ (Int.log 2 |q| - 52)

def toDouble (q : ℚ) : ℚ := nearestEven (q / ulp q) * ulp q

/-- `int(_)` of a float. -/
def truncate (q : ℚ) : ℤ := if 0 ≤ q then ⌊q⌋ else ⌈q⌉

theorem floor_le_nearestEven (q : ℚ) : ⌊q⌋ ≤ nearestEven q := by
  unfold nearestEven
  dsimp only
  split_ifs <;> omega

theorem nearestEven_le_floor (q : ℚ) : nearestEven q ≤ ⌊q⌋ + 1 := by
  unfold nearestEven
  dsimp only
  split_ifs <;> omega

theorem nearestEven_mono : Monotone nearestEven := by
  intro p q le
  rcases (Int.floor_mono le).eq_or_lt with same | less
  · unfold nearestEven
    dsimp only
    rw [same]
    split_ifs <;> first | omega | (exfalso; linarith)
  · have := nearestEven_le_floor p
    have := floor_le_nearestEven q
    omega

theorem nearestEven_intCast (n : ℤ) : nearestEven n = n := by
  unfold nearestEven
  simp

theorem ulp_pos (q : ℚ) : 0 < ulp q := by
  unfold ulp
  exact zpow_pos (by norm_num) _

variable {q : ℚ} {n : ℤ}

theorem toDouble_le (le : q ≤ n * ulp q) : toDouble q ≤ n * ulp q := by
  have below : nearestEven (q / ulp q) ≤ n := by
    rw [← nearestEven_intCast n]
    exact nearestEven_mono ((div_le_iff₀ (ulp_pos q)).mpr le)
  exact mul_le_mul_of_nonneg_right (by exact_mod_cast below) (ulp_pos q).le

theorem le_toDouble (le : n * ulp q ≤ q) : n * ulp q ≤ toDouble q := by
  have above : n ≤ nearestEven (q / ulp q) := by
    rw [← nearestEven_intCast n]
    exact nearestEven_mono ((le_div_iff₀ (ulp_pos q)).mpr le)
  exact mul_le_mul_of_nonneg_right (by exact_mod_cast above) (ulp_pos q).le

theorem pow_mul_ulp (q : ℚ) (k : ℕ) : ((2 ^ (52 + k) : ℤ) : ℚ) * ulp q = 2 ^ (Int.log 2 |q| + k) := by
  have two : (2 : ℚ) ≠ 0 := by norm_num
  rw [ulp, Int.cast_pow, Int.cast_ofNat, ← zpow_natCast, ← zpow_add₀ two]
  congr 1
  push_cast
  ring

theorem abs_le_pow (q : ℚ) : |q| ≤ ((2 ^ (52 + 1) : ℤ) : ℚ) * ulp q := by
  rw [pow_mul_ulp, Nat.cast_one]
  exact (Int.lt_zpow_succ_log_self (by norm_num) |q|).le

theorem pow_le_abs (nonzero : q ≠ 0) : ((2 ^ (52 + 0) : ℤ) : ℚ) * ulp q ≤ |q| := by
  rw [pow_mul_ulp, Nat.cast_zero, add_zero]
  exact Int.zpow_log_le_self (by norm_num) (abs_pos.mpr nonzero)

theorem toDouble_le_pow (q : ℚ) : toDouble q ≤ 2 ^ (Int.log 2 |q| + 1) := by
  have bound := toDouble_le ((le_abs_self q).trans (abs_le_pow q))
  rwa [pow_mul_ulp, Nat.cast_one] at bound

theorem neg_pow_le_toDouble (q : ℚ) : -2 ^ (Int.log 2 |q| + 1) ≤ toDouble q := by
  have start : ((-2 ^ (52 + 1) : ℤ) : ℚ) * ulp q ≤ q := by
    rw [Int.cast_neg, neg_mul]
    exact (neg_le_neg (abs_le_pow q)).trans (neg_abs_le q)
  have bound := le_toDouble start
  rwa [Int.cast_neg, neg_mul, pow_mul_ulp, Nat.cast_one] at bound

theorem pow_le_toDouble (positive : 0 < q) : 2 ^ Int.log 2 |q| ≤ toDouble q := by
  have bound := le_toDouble ((pow_le_abs positive.ne').trans_eq (abs_of_pos positive))
  rwa [pow_mul_ulp, Nat.cast_zero, add_zero] at bound

theorem toDouble_le_neg_pow (negative : q < 0) : toDouble q ≤ -2 ^ Int.log 2 |q| := by
  have start : q ≤ ((-2 ^ (52 + 0) : ℤ) : ℚ) * ulp q := by
    have := pow_le_abs negative.ne
    rw [abs_of_neg negative] at this
    rw [Int.cast_neg, neg_mul]
    linarith
  have bound := toDouble_le start
  rwa [Int.cast_neg, neg_mul, pow_mul_ulp, Nat.cast_zero, add_zero] at bound

theorem toDouble_le_toDouble {p : ℚ} (le : p ≤ q) (same : ulp p = ulp q) : toDouble p ≤ toDouble q := by
  rw [toDouble, toDouble, same]
  have rounded := nearestEven_mono (div_le_div_of_nonneg_right le (ulp_pos q).le)
  exact mul_le_mul_of_nonneg_right (by exact_mod_cast rounded) (ulp_pos q).le

theorem toDouble_mono : Monotone toDouble := by
  intro p q le
  rcases lt_or_ge 0 p with positive | nonpos
  · have logs : Int.log 2 |p| ≤ Int.log 2 |q| :=
      Int.log_mono_right (abs_pos.mpr positive.ne') (abs_le_abs_of_nonneg positive.le le)
    rcases logs.eq_or_lt with same | less
    · exact toDouble_le_toDouble le (by rw [ulp, ulp, same])
    · calc toDouble p ≤ 2 ^ (Int.log 2 |p| + 1) := toDouble_le_pow p
        _ ≤ 2 ^ Int.log 2 |q| := zpow_le_zpow_right₀ (by norm_num) less
        _ ≤ toDouble q := pow_le_toDouble (positive.trans_le le)
  rcases lt_or_ge q 0 with negative | nonneg
  · have logs : Int.log 2 |q| ≤ Int.log 2 |p| := by
      refine Int.log_mono_right (abs_pos.mpr negative.ne) ?_
      rw [abs_of_neg negative, abs_of_neg (le.trans_lt negative)]
      exact neg_le_neg le
    rcases logs.eq_or_lt with same | less
    · exact toDouble_le_toDouble le (by rw [ulp, ulp, same])
    · have powers : (2 : ℚ) ^ (Int.log 2 |q| + 1) ≤ 2 ^ Int.log 2 |p| := zpow_le_zpow_right₀ (by norm_num) less
      calc toDouble p ≤ -2 ^ Int.log 2 |p| := toDouble_le_neg_pow (le.trans_lt negative)
        _ ≤ -2 ^ (Int.log 2 |q| + 1) := neg_le_neg powers
        _ ≤ toDouble q := neg_pow_le_toDouble q
  · have low := toDouble_le (q := p) (n := 0) (by simpa using nonpos)
    have high := le_toDouble (q := q) (n := 0) (by simpa using nonneg)
    simp only [Int.cast_zero, zero_mul] at low high
    exact low.trans high

theorem truncate_mono : Monotone truncate := by
  intro p q le
  unfold truncate
  split_ifs with first second second
  · exact Int.floor_mono le
  · exact (second (first.trans le)).elim
  · have below : ⌈p⌉ ≤ 0 := Int.ceil_le.mpr (by simpa using (not_le.mp first).le)
    exact below.trans (Int.floor_nonneg.mpr second)
  · exact Int.ceil_mono le

end Tinydb.Lib
