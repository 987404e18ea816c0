import Mathlib.Data.Int.Log
import Mathlib.Data.Rat.Floor
import Mathlib.Tactic.Linarith
import Mathlib.Tactic.Ring
/-!
# Rounding to a binary format

The numbers of a binary format are the multiples of powers of two with a
significand of so many bits, down to a least exponent and with no greatest
one. Rounding goes to the nearest of them, and to the even significand
between two. As it goes to a nearest one, it is monotone.
-/

namespace Congine

/-- A significand's bits, and the exponent of the least multiple. -/
structure BinaryFormat where
  precision : ℕ
  minExponent : ℤ
  precision_pos : 1 ≤ precision := by decide

/-- IEEE 754 doubles, short of their overflow. -/
def binary64 : BinaryFormat where
  precision := 53
  minExponent := -1074

/-- The nearest integer, the even one of two. -/
def nearestEven (x : ℚ) : ℤ :=
  if x - ⌊x⌋ < 1 / 2 then ⌊x⌋
  else if 1 / 2 < x - ⌊x⌋ then ⌊x⌋ + 1
  else if ⌊x⌋ % 2 = 0 then ⌊x⌋
  else ⌊x⌋ + 1

theorem nearestEven_nearest (x : ℚ) (n : ℤ) : |x - nearestEven x| ≤ |x - n| := by
  have hlow := Int.floor_le x
  have hhigh := Int.lt_floor_add_one x
  have hdist : x - ⌊x⌋ ≤ |x - n| ∨ ⌊x⌋ + 1 - x ≤ |x - n| := by
    rcases le_or_gt n ⌊x⌋ with hn | hn
    · have hn' : (n : ℚ) ≤ ⌊x⌋ := by exact_mod_cast hn
      exact .inl (le_trans (by linarith) (le_abs_self _))
    · have hn' : (⌊x⌋ : ℚ) + 1 ≤ n := by exact_mod_cast hn
      exact .inr (le_trans (by linarith) (neg_le_abs _))
  have hself : |x - (⌊x⌋ : ℚ)| = x - ⌊x⌋ := abs_of_nonneg (by linarith)
  have hnext : |x - ((⌊x⌋ + 1 : ℤ) : ℚ)| = ⌊x⌋ + 1 - x := by
    push_cast
    rw [abs_of_nonpos (by linarith)]
    ring
  unfold nearestEven
  split_ifs with hless hmore
  · rw [hself]
    rcases hdist with h | h <;> linarith
  · rw [hnext]
    rcases hdist with h | h <;> linarith
  · rw [hself]
    rcases hdist with h | h <;> linarith
  · rw [hnext]
    rcases hdist with h | h <;> linarith

theorem abs_nearestEven_le {x : ℚ} {n : ℕ} (h : |x| < n) : |nearestEven x| ≤ n := by
  obtain ⟨hlow, hhigh⟩ := abs_lt.mp h
  by_contra hgt
  have hfar : (n : ℤ) + 1 ≤ nearestEven x ∨ nearestEven x ≤ -(n : ℤ) - 1 := by
    rcases lt_abs.mp (not_le.mp hgt) with h | h <;> omega
  rcases hfar with hfar | hfar
  · have hcast : (n : ℚ) + 1 ≤ nearestEven x := by exact_mod_cast hfar
    have hnear := nearestEven_nearest x n
    rw [abs_of_neg (by linarith), abs_of_neg (by push_cast; linarith)] at hnear
    push_cast at hnear
    linarith
  · have hcast : (nearestEven x : ℚ) ≤ -n - 1 := by exact_mod_cast hfar
    have hnear := nearestEven_nearest x (-n)
    rw [abs_of_pos (by linarith), abs_of_pos (by push_cast; linarith)] at hnear
    push_cast at hnear
    linarith

namespace BinaryFormat

variable (f : BinaryFormat)

/-- The number is one of the format's. -/
def Represents (x : ℚ) : Prop :=
  ∃ m e : ℤ, x = m * 2 ^ e ∧ |m| ≤ 2 ^ f.precision ∧ f.minExponent ≤ e

/-- The exponent of the last place of the numbers around one. -/
def quantum (x : ℚ) : ℤ := max (Int.log 2 |x| + 1 - f.precision) f.minExponent

/-- The nearest number of the format. -/
def round (x : ℚ) : ℚ := nearestEven (x / 2 ^ f.quantum x) * 2 ^ f.quantum x

variable {f}

theorem two_zpow_pos (e : ℤ) : (0 : ℚ) < 2 ^ e := zpow_pos (by norm_num) e

theorem round_zero : f.round 0 = 0 := by
  simp [round, nearestEven]

theorem round_represents (x : ℚ) : f.Represents (f.round x) := by
  refine ⟨nearestEven (x / 2 ^ f.quantum x), f.quantum x, rfl, ?_, le_max_right _ _⟩
  have hbelow : |x| < 2 ^ (Int.log 2 |x| + 1) := by
    exact_mod_cast Int.lt_zpow_succ_log_self (by norm_num) |x|
  have hscaled : |x / 2 ^ f.quantum x| < ((2 ^ f.precision : ℕ) : ℚ) := by
    rw [abs_div, abs_of_pos (two_zpow_pos _), div_lt_iff₀ (two_zpow_pos _)]
    push_cast
    rw [← zpow_natCast, ← zpow_add₀ (by norm_num)]
    refine hbelow.trans_le (zpow_le_zpow_right₀ (by norm_num) ?_)
    have := le_max_left (Int.log 2 |x| + 1 - f.precision) f.minExponent
    unfold quantum
    omega
  exact_mod_cast abs_nearestEven_le hscaled

/-- Around a number nothing of the same last place is nearer. -/
theorem round_le_grid (x : ℚ) (n : ℤ) : |x - f.round x| ≤ |x - n * 2 ^ f.quantum x| := by
  have hpos := two_zpow_pos (f.quantum x)
  have hscale : ∀ m : ℤ, |x - m * 2 ^ f.quantum x| =
      |x / 2 ^ f.quantum x - m| * 2 ^ f.quantum x := by
    intro m
    rw [← abs_of_pos hpos, ← abs_mul, abs_of_pos hpos, sub_mul, div_mul_cancel₀ _ hpos.ne']
  rw [round, hscale, hscale]
  exact mul_le_mul_of_nonneg_right (nearestEven_nearest _ n) hpos.le

/-- **Rounding goes to a nearest number of the format.** -/
theorem round_nearest (x : ℚ) {y : ℚ} (hy : f.Represents y) : |x - f.round x| ≤ |x - y| := by
  rcases eq_or_ne x 0 with rfl | hx
  · rw [round_zero, sub_self, abs_zero]
    exact abs_nonneg _
  obtain ⟨m, e, rfl, hm, he⟩ := hy
  rcases le_or_gt (f.quantum x) e with hcoarse | hfine
  · -- A multiple of a higher power of two is one of the last place.
    have hgrid := round_le_grid (f := f) x (m * 2 ^ (e - f.quantum x).toNat)
    have hpower : (2 : ℚ) ^ (e - f.quantum x).toNat * 2 ^ f.quantum x = 2 ^ e := by
      rw [← zpow_natCast, ← zpow_add₀ (by norm_num)]
      congr 1
      omega
    push_cast at hgrid
    rwa [mul_assoc, hpower] at hgrid
  · -- One of a lower last place lies below the power of two that `x` starts with.
    have hquantum : f.quantum x = Int.log 2 |x| + 1 - f.precision := by
      unfold quantum at hfine ⊢
      omega
    have hlead : (2 : ℚ) ^ Int.log 2 |x| ≤ |x| := by
      exact_mod_cast Int.zpow_log_le_self (b := 2) (by norm_num) (abs_pos.mpr hx)
    have hsmall : |(m : ℚ) * 2 ^ e| ≤ 2 ^ Int.log 2 |x| := by
      rw [abs_mul, abs_of_pos (two_zpow_pos e)]
      have hm' : |(m : ℚ)| ≤ 2 ^ (f.precision : ℤ) := by
        rw [zpow_natCast]
        exact_mod_cast hm
      calc |(m : ℚ)| * 2 ^ e ≤ 2 ^ (f.precision : ℤ) * 2 ^ e :=
            mul_le_mul_of_nonneg_right hm' (two_zpow_pos e).le
        _ = 2 ^ ((f.precision : ℤ) + e) := (zpow_add₀ (by norm_num) _ _).symm
        _ ≤ 2 ^ Int.log 2 |x| := zpow_le_zpow_right₀ (by norm_num) (by omega)
    have hpower : (2 : ℚ) ^ (f.precision - 1) * 2 ^ f.quantum x = 2 ^ Int.log 2 |x| := by
      rw [← zpow_natCast, ← zpow_add₀ (by norm_num)]
      congr 1
      have := f.precision_pos
      omega
    have hbound : |x| - 2 ^ Int.log 2 |x| ≤ |x - m * 2 ^ e| :=
      (sub_le_sub_left hsmall _).trans (abs_sub_abs_le_abs_sub _ _)
    refine le_trans ?_ hbound
    generalize (2 : ℚ) ^ Int.log 2 |x| = lead at hlead hpower ⊢
    rcases le_or_gt 0 x with hsign | hsign
    · have hgrid := round_le_grid (f := f) x (2 ^ (f.precision - 1))
      push_cast at hgrid
      rw [abs_of_nonneg hsign] at hlead ⊢
      rwa [hpower, abs_of_nonneg (sub_nonneg.mpr hlead)] at hgrid
    · have hgrid := round_le_grid (f := f) x (-2 ^ (f.precision - 1))
      push_cast at hgrid
      rw [abs_of_neg hsign] at hlead ⊢
      rw [neg_mul, hpower, sub_neg_eq_add, abs_of_nonpos (by linarith : x + lead ≤ 0)] at hgrid
      linarith

/-- **Rounding is monotone.** -/
theorem round_mono (f : BinaryFormat) : Monotone f.round := by
  intro x y hxy
  by_contra hlt
  have hlt := not_le.mp hlt
  have hne : x < y := lt_of_le_of_ne hxy fun h => by
    rw [h] at hlt
    exact lt_irrefl _ hlt
  -- Each is nearer to its own rounding than to the other's, so they cannot cross.
  have hx := round_nearest x (round_represents (f := f) y)
  have hy := round_nearest y (round_represents (f := f) x)
  have hsx := sq_le_sq.mpr hx
  have hsy := sq_le_sq.mpr hy
  nlinarith

end BinaryFormat

end Congine
