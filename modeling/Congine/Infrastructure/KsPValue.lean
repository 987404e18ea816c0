import Congine.Infrastructure.KsSeries
/-!
# The p-value of the drift statistic

The series at the scaled statistic, between 0 and 1; and 1 at a statistic
of 0. Next to 0 the p-value is next to 0 all the same, so that it never
rises only from some statistic on: from where the series loses no more
terms that leave an odd number.
-/

namespace Congine

open KSDriftEngine (realMath)

/-! ## The p-value -/

section PValue

variable {n1 n2 : ℕ}

theorem ksPValue_zero (n1 n2 : ℕ) : ksPValue realMath 0 n1 n2 = 1 := by
  simp [ksPValue]

theorem ksPValue_of_pos {s : ℝ} (hs : 0 < ksScale n1 n2 * s) :
    ksPValue realMath s n1 n2 =
      max 0 (min 1 (ksSeries realMath (ksScale n1 n2 * s) 100 1 1 0)) :=
  if_neg (not_le.mpr hs)

/-- Where the first term is below 1 the p-value is the sum itself. -/
theorem ksPValue_eq_ksSum {s : ℝ} (hs : 0 < ksScale n1 n2 * s)
    (hend : ksLimit ≤ 100 * (ksScale n1 n2 * s))
    (hsmall : 2 * Real.exp (-2 * (ksScale n1 n2 * s) * (ksScale n1 n2 * s)) ≤ 1) :
    ksPValue realMath s n1 n2 =
      ksSum (ksScale n1 n2 * s) ⌈ksLimit / (ksScale n1 n2 * s)⌉₊ := by
  obtain ⟨hpos, hle⟩ := ksSum_mem hs.le ⌈ksLimit / (ksScale n1 n2 * s)⌉₊
  rw [ksPValue_of_pos hs, ksSeries_eq_ksSum hs hend, min_eq_right (hle.trans hsmall),
    max_eq_right hpos]

/-- **Every scale reaches the point** where the fifth term is small. -/
theorem ksLimit_le_scale (h1 : 1 ≤ n1) (h2 : 1 ≤ n2) : ksLimit ≤ 5 * ksScale n1 n2 := by
  have hn1 : (1 : ℝ) ≤ n1 := by exact_mod_cast h1
  have hn2 : (1 : ℝ) ≤ n2 := by exact_mod_cast h2
  have hratio : (7 / 10 : ℝ) ^ 2 ≤ n1 * n2 / (n1 + n2) := by
    rw [le_div_iff₀ (by linarith)]
    nlinarith
  have hen : (7 / 10 : ℝ) ≤ Real.sqrt (n1 * n2 / (n1 + n2)) := Real.le_sqrt_of_sq_le hratio
  have hrest : 0 ≤ 11 / 100 / Real.sqrt (n1 * n2 / (n1 + n2)) := by positivity
  have hfour := ksLimit_le_four
  rw [ksScale]
  linarith

theorem ksScale_pos (h1 : 1 ≤ n1) (h2 : 1 ≤ n2) : 0 < ksScale n1 n2 := by
  have hscale := ksLimit_le_scale h1 h2
  have hlimit := ksLimit_pos
  linarith

/-! ## The statistics at which a term is the cut-off -/

/-- The statistic at which the `k`-th term is the cut-off. -/
noncomputable def ksCut (n1 n2 k : ℕ) : ℝ := ksLimit / (k * ksScale n1 n2)

theorem lt_ksCut_iff (h1 : 1 ≤ n1) (h2 : 1 ≤ n2) {k : ℕ} (hk : 0 < k) {s : ℝ} :
    s < ksCut n1 n2 k ↔ k * (ksScale n1 n2 * s) < ksLimit := by
  have hpos : 0 < k * ksScale n1 n2 := mul_pos (Nat.cast_pos.mpr hk) (ksScale_pos h1 h2)
  rw [ksCut, lt_div_iff₀' hpos, mul_assoc]

theorem ksCut_le_iff (h1 : 1 ≤ n1) (h2 : 1 ≤ n2) {k : ℕ} (hk : 0 < k) {s : ℝ} :
    ksCut n1 n2 k ≤ s ↔ ksLimit ≤ k * (ksScale n1 n2 * s) := by
  rw [← not_lt, lt_ksCut_iff h1 h2 hk, not_lt]

theorem mul_ksCut (h1 : 1 ≤ n1) (h2 : 1 ≤ n2) {k : ℕ} (hk : 0 < k) :
    k * (ksScale n1 n2 * ksCut n1 n2 k) = ksLimit := by
  have hpos : 0 < k * ksScale n1 n2 := mul_pos (Nat.cast_pos.mpr hk) (ksScale_pos h1 h2)
  rw [← mul_assoc, ksCut, mul_div_cancel₀ ksLimit hpos.ne']

theorem ksCut_pos (h1 : 1 ≤ n1) (h2 : 1 ≤ n2) {k : ℕ} (hk : 0 < k) : 0 < ksCut n1 n2 k := by
  rw [lt_ksCut_iff h1 h2 hk, mul_zero, mul_zero]
  exact ksLimit_pos

/-- The fifth term is the cut-off at a statistic, whatever the sizes. -/
theorem ksCut_five_le_one (h1 : 1 ≤ n1) (h2 : 1 ≤ n2) : ksCut n1 n2 5 ≤ 1 := by
  rw [ksCut_le_iff h1 h2 (by decide), mul_one]
  exact_mod_cast ksLimit_le_scale h1 h2

/-! ## Where the p-value rises -/

/-- Just before a statistic at which an odd term of the first five is the
cut-off the p-value is lower. -/
theorem exists_ksPValue_lt (h1 : 1 ≤ n1) (h2 : 1 ≤ n2) {a s : ℝ} {k : ℕ} (ha : 0 ≤ a) (has : a < s)
    (hk : Odd k) (hk5 : k ≤ 5) (hks : k * (ksScale n1 n2 * s) = ksLimit) :
    ∃ s', a < s' ∧ s' < s ∧ ksPValue realMath s' n1 n2 < ksPValue realMath s n1 n2 := by
  have hscale := ksScale_pos h1 h2
  have hk5' : (k : ℝ) ≤ 5 := by exact_mod_cast hk5
  have ht : 0 < ksScale n1 n2 * s := mul_pos hscale (ha.trans_lt has)
  have hfive : ksLimit ≤ 5 * (ksScale n1 n2 * s) := by
    rw [← hks]
    exact mul_le_mul_of_nonneg_right hk5' ht.le
  have hsmall := two_mul_exp_lt_one hfive
  have hl : max (ksScale n1 n2 * a) (ksLimit / 100) < ksScale n1 n2 * s := by
    refine max_lt (mul_lt_mul_of_pos_left has hscale) ?_
    linarith
  obtain ⟨t', hl', hlt, ht', hsmall', hsum⟩ := exists_ksSum_lt ht hl hk hks hsmall
  obtain ⟨hal, hend⟩ := max_lt_iff.mp hl'
  have hback : ksScale n1 n2 * (t' / ksScale n1 n2) = t' := mul_div_cancel₀ t' hscale.ne'
  refine ⟨t' / ksScale n1 n2, ?_, ?_, ?_⟩
  · rw [lt_div_iff₀ hscale]
    linarith
  · rw [div_lt_iff₀ hscale]
    linarith
  · rw [ksPValue_eq_ksSum ht (by linarith) hsmall.le,
      ksPValue_eq_ksSum (by rw [hback]; exact ht') (by rw [hback]; linarith)
        (by rw [hback]; exact hsmall'.le), hback]
    exact hsum

/-- **Where no odd term becomes the cut-off the p-value does not rise**, from
the statistic on at which the fifth is. -/
theorem ksPValue_le_of_ksCut (h1 : 1 ≤ n1) (h2 : 1 ≤ n2) {s s' : ℝ} (hfifth : ksCut n1 n2 5 ≤ s)
    (hss' : s ≤ s') (hcut : ∀ k, Odd k → s < ksCut n1 n2 k → s' < ksCut n1 n2 k) :
    ksPValue realMath s' n1 n2 ≤ ksPValue realMath s n1 n2 := by
  have hlimit := ksLimit_pos
  have hstart : ksLimit ≤ 5 * (ksScale n1 n2 * s) := by
    exact_mod_cast (ksCut_le_iff h1 h2 (by decide)).mp hfifth
  have hle : ksScale n1 n2 * s ≤ ksScale n1 n2 * s' :=
    mul_le_mul_of_nonneg_left hss' (ksScale_pos h1 h2).le
  have ht : 0 < ksScale n1 n2 * s := by linarith
  have hsmall := two_mul_exp_lt_one hstart
  have hstart' : ksLimit ≤ 5 * (ksScale n1 n2 * s') := by linarith
  have hsmall' := two_mul_exp_lt_one hstart'
  rw [ksPValue_eq_ksSum ht (by linarith) hsmall.le,
    ksPValue_eq_ksSum (ht.trans_le hle) (by linarith) hsmall'.le]
  refine ksSum_ceil_le hle ht hsmall.le fun k hk hbefore => ?_
  exact (lt_ksCut_iff h1 h2 hk.pos).mp (hcut k hk ((lt_ksCut_iff h1 h2 hk.pos).mpr hbefore))

/-- Where an odd term becomes the cut-off the p-value rises, at that term or
at the fifth, if it is a later one. -/
theorem exists_ksPValue_lt_of_ksCut (h1 : 1 ≤ n1) (h2 : 1 ≤ n2) {a : ℝ} {k : ℕ} (ha : 0 ≤ a)
    (hk : Odd k) (hak : a < ksCut n1 n2 k) (hk1 : ksCut n1 n2 k ≤ 1) :
    ∃ s s', a < s ∧ s < s' ∧ s' ≤ 1 ∧ ksPValue realMath s n1 n2 < ksPValue realMath s' n1 n2 := by
  have hks := mul_ksCut h1 h2 hk.pos
  rcases le_or_gt k 5 with hle | hgt
  · obtain ⟨s, has, hsk, hrise⟩ := exists_ksPValue_lt h1 h2 ha hak hk hle hks
    exact ⟨s, _, has, hsk, hk1, hrise⟩
  · have hfifth : ksCut n1 n2 k < ksCut n1 n2 5 := by
      rw [lt_ksCut_iff h1 h2 (by decide), ← hks]
      exact mul_lt_mul_of_pos_right (Nat.cast_lt.mpr hgt)
        (mul_pos (ksScale_pos h1 h2) (ksCut_pos h1 h2 hk.pos))
    obtain ⟨s, has, hsk, hrise⟩ := exists_ksPValue_lt h1 h2 ha (hak.trans hfifth) (by decide) le_rfl
      (mul_ksCut h1 h2 (by decide))
    exact ⟨s, _, has, hsk, ksCut_five_le_one h1 h2, hrise⟩

/-- **From where on the p-value never rises**: from `a` on exactly where no
odd term becomes the cut-off later. -/
theorem ksPValue_antitone_iff (h1 : 1 ≤ n1) (h2 : 1 ≤ n2) {a : ℝ} (ha : 0 ≤ a) :
    (∀ s s', a ≤ s → s ≤ s' → s' ≤ 1 → ksPValue realMath s' n1 n2 ≤ ksPValue realMath s n1 n2) ↔
      ∀ k, Odd k → a < ksCut n1 n2 k → 1 < ksCut n1 n2 k := by
  constructor
  · intro hfalls k hk hak
    by_contra hk1
    obtain ⟨s, s', has, hss', hs1, hrise⟩ :=
      exists_ksPValue_lt_of_ksCut h1 h2 ha hk hak (not_lt.mp hk1)
    exact absurd (hfalls s s' has.le hss'.le hs1) (not_le.mpr hrise)
  · intro hcut s s' has hss' hs1
    refine ksPValue_le_of_ksCut h1 h2 ?_ hss' fun k hk hsk => ?_
    · by_contra hlt
      have hlater := hcut 5 (by decide) (has.trans_lt (not_le.mp hlt))
      exact absurd (ksCut_five_le_one h1 h2) (not_le.mpr hlater)
    · exact hs1.trans_lt (hcut k hk (has.trans_lt hsk))

/-- **Next to 0 the p-value is next to 0**: without a small term the hundred
terms cancel. -/
theorem ksPValue_le {s : ℝ} (hs : 0 < ksScale n1 n2 * s) :
    ksPValue realMath s n1 n2 ≤ 20200 * (ksScale n1 n2 * s) ^ 2 := by
  have hpos : 0 ≤ 20200 * (ksScale n1 n2 * s) ^ 2 := by positivity
  rw [ksPValue_of_pos hs]
  refine max_le hpos ?_
  rcases le_or_gt ksLimit (100 * (ksScale n1 n2 * s)) with hend | hnone
  · refine (min_le_left _ _).trans ?_
    have hlog : 1 - (2 * 10 ^ 10 : ℝ)⁻¹ ≤ Real.log (2 * 10 ^ 10) :=
      Real.one_sub_inv_le_log_of_pos (by norm_num)
    have hsq : ksLimit ^ 2 = Real.log (2 * 10 ^ 10) / 2 :=
      Real.sq_sqrt (by positivity)
    have hle : ksLimit ^ 2 ≤ (100 * (ksScale n1 n2 * s)) ^ 2 :=
      pow_le_pow_left₀ ksLimit_pos.le hend 2
    rw [hsq, mul_pow] at hle
    generalize Real.log (2 * 10 ^ 10) = log at hlog hle
    norm_num at hlog hle
    linarith
  · refine (min_le_right _ _).trans ?_
    have hsum := ksSum_even_le (ksScale n1 n2 * s) 50
    rw [ksSeries_eq_ksSum_hundred hs hnone]
    norm_num at hsum
    linarith

/-- **The p-value never rises only from some statistic on.** It is 1 at 0,
and for no two sizes it never rises on the whole of the statistics: from
`a` on it never rises exactly where every odd term that becomes the cut-off
later does so past 1. Between two statistics from the fifth such on it is
enough that none of them is between. -/
theorem ksPValue_never_rises_iff (n1 n2 : ℕ) (h1 : 1 ≤ n1) (h2 : 1 ≤ n2) :
    ksPValue realMath 0 n1 n2 = 1 ∧
      (∃ s s', 0 ≤ s ∧ s ≤ s' ∧ s' ≤ 1 ∧ ksPValue realMath s n1 n2 < ksPValue realMath s' n1 n2) ∧
      (∀ a, 0 ≤ a →
        ((∀ s s', a ≤ s → s ≤ s' → s' ≤ 1 →
            ksPValue realMath s' n1 n2 ≤ ksPValue realMath s n1 n2) ↔
          ∀ k, Odd k → a < ksCut n1 n2 k → 1 < ksCut n1 n2 k)) ∧
      ∀ s s', ksCut n1 n2 5 ≤ s → s ≤ s' →
        (∀ k, Odd k → s < ksCut n1 n2 k → s' < ksCut n1 n2 k) →
          ksPValue realMath s' n1 n2 ≤ ksPValue realMath s n1 n2 := by
  refine ⟨ksPValue_zero n1 n2, ?_, fun a ha => ksPValue_antitone_iff h1 h2 ha,
    fun s s' hfifth hss' hcut => ksPValue_le_of_ksCut h1 h2 hfifth hss' hcut⟩
  obtain ⟨s, s', hs, hss', hs1, hrise⟩ := exists_ksPValue_lt_of_ksCut h1 h2 le_rfl (by decide)
    (ksCut_pos h1 h2 (by decide)) (ksCut_five_le_one h1 h2)
  exact ⟨s, s', hs.le, hss'.le, hs1, hrise⟩

/-- With one observation on each side too. -/
theorem ksPValue_never_rises_iff_one : ∃ s s', 0 ≤ s ∧ s ≤ s' ∧ s' ≤ 1 ∧
    ksPValue realMath s 1 1 < ksPValue realMath s' 1 1 :=
  (ksPValue_never_rises_iff 1 1 le_rfl le_rfl).2.1

theorem ksScale_counts : ksScale 225 64 = 120 / 17 + 12 / 100 + 11 / 100 / (120 / 17) := by
  have hratio : ((225 : ℕ) : ℝ) * ((64 : ℕ) : ℝ) / (((225 : ℕ) : ℝ) + ((64 : ℕ) : ℝ)) =
      (120 / 17) ^ 2 := by norm_num
  rw [ksScale, hratio, Real.sqrt_sq (by norm_num)]

/-- **The least statistic of 225 and 64 observations** is significant, and
one of a sixteenth is not. -/
theorem ksPValue_rises :
    ksPValue realMath (1 / 14400) 225 64 < 1 / 100 ∧
      2 / 5 ≤ ksPValue realMath (1 / 16) 225 64 := by
  constructor
  · have hpos : 0 < ksScale 225 64 * (1 / 14400) := by
      rw [ksScale_counts]
      norm_num
    refine (ksPValue_le hpos).trans_lt ?_
    rw [ksScale_counts]
    norm_num
  · have hpos : 0 < ksScale 225 64 * (1 / 16) := by
      rw [ksScale_counts]
      norm_num
    rw [ksPValue_of_pos hpos]
    refine le_max_of_le_right (le_min (by norm_num) ?_)
    refine le_trans ?_ ((le_ksTerm_one_sub_ksTerm_two _).trans (sub_le_ksSeries hpos))
    rw [ksScale_counts]
    norm_num

end PValue

end Congine
