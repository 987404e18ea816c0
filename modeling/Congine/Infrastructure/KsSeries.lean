import Congine.Common.AlternatingSum
import Congine.Infrastructure.KsDrift
/-!
# The series of the p-value

An alternating series in the scaled statistic, cut off at the first term
that is no more than `1 / 10 ^ 10` and after a hundred terms. Cut off
alike it falls, from where its first term is below 1; where it loses its
last term to the cut-off and an odd number is left, it goes up. Next to 0
the hundred terms hardly shrink, and cancel.
-/

namespace Congine

open KSDriftEngine (realMath)

/-- The series up to its `m`-th term. -/
noncomputable def ksSum (t : ℝ) (m : ℕ) : ℝ := alternatingSum (fun j => ksTerm (j + 1) t) m

/-! ## The series -/

theorem ksTerm_pos (k : ℕ) (t : ℝ) : 0 < ksTerm k t := by
  rw [ksTerm]
  positivity

theorem ksTerm_le_iff {k k' : ℕ} {t t' : ℝ} (ht : 0 ≤ t) (ht' : 0 ≤ t') :
    ksTerm k' t' ≤ ksTerm k t ↔ (k : ℝ) * t ≤ k' * t' := by
  have hpos : 0 ≤ (k : ℝ) * t := mul_nonneg (Nat.cast_nonneg k) ht
  have hpos' : 0 ≤ (k' : ℝ) * t' := mul_nonneg (Nat.cast_nonneg k') ht'
  have hsq : -2 * (k' : ℝ) * k' * t' * t' ≤ -2 * k * k * t * t ↔
      (k * t) ^ 2 ≤ ((k' : ℝ) * t') ^ 2 := by
    constructor
    · intro h
      linarith
    · intro h
      linarith
  rw [ksTerm, ksTerm, mul_le_mul_iff_right₀ two_pos, Real.exp_le_exp, hsq,
    sq_le_sq₀ hpos hpos']

/-- The terms fall. -/
theorem ksTerm_antitone {t : ℝ} (ht : 0 ≤ t) : Antitone fun j => ksTerm (j + 1) t := by
  intro i j hij
  refine (ksTerm_le_iff ht ht).mpr ?_
  gcongr

/-- One turn of the loop. -/
theorem ksSeries_succ (t : ℝ) (k left : ℕ) :
    ksSeries realMath t (left + 1) (k + 1) ((-1) ^ k) (ksSum t k) =
      if ksTerm (k + 1) t ≤ ksCutoff then ksSum t (k + 1)
      else ksSeries realMath t left (k + 1 + 1) ((-1) ^ (k + 1)) (ksSum t (k + 1)) := by
  have hterm : 2 * (-1) ^ k * realMath.exp (-2 * ((k + 1 : ℕ) : ℝ) * ((k + 1 : ℕ) : ℝ) * t * t) =
      (-1) ^ k * ksTerm (k + 1) t := by
    rw [ksTerm]
    show 2 * (-1) ^ k * Real.exp _ = _
    ring
  have hsize : |(-1) ^ k * ksTerm (k + 1) t| = ksTerm (k + 1) t := by
    rw [abs_mul, abs_pow, abs_neg, abs_one, one_pow, one_mul, abs_of_pos (ksTerm_pos _ _)]
  have hsum : ksSum t k + (-1) ^ k * ksTerm (k + 1) t = ksSum t (k + 1) :=
    (alternatingSum_succ _ k).symm
  have hsign : -(-1 : ℝ) ^ k = (-1) ^ (k + 1) := by
    rw [pow_succ]
    ring
  rw [ksSeries]
  simp only [hterm, hsize, hsum, hsign]
  rfl

/-- **The loop adds up the terms to the first small one**, or all it has
left. -/
theorem ksSeries_eq {t : ℝ} {k left m : ℕ} (hkm : k < m) (hm : m ≤ k + left)
    (hlarge : ∀ i, k < i → i < m → ksCutoff < ksTerm i t)
    (hlast : ksTerm m t ≤ ksCutoff ∨ m = k + left) :
    ksSeries realMath t left (k + 1) ((-1) ^ k) (ksSum t k) = ksSum t m := by
  induction left generalizing k with
  | zero => omega
  | succ left ih =>
    rw [ksSeries_succ]
    rcases eq_or_lt_of_le (Nat.succ_le_of_lt hkm) with rfl | hlt
    · split_ifs with hsmall
      · rfl
      · have hleft : left = 0 := by
          have hend := hlast.resolve_left hsmall
          omega
        rw [hleft]
        rfl
    · rw [if_neg (not_le.mpr (hlarge (k + 1) (Nat.lt_succ_self k) hlt))]
      refine ih hlt (by omega) (fun i hi hlt => hlarge i (by omega) hlt) ?_
      rcases hlast with hsmall | hend
      · exact .inl hsmall
      · exact .inr (by omega)

/-- The whole series, from the first term. -/
theorem ksSeries_first {t : ℝ} {m : ℕ} (hm : 1 ≤ m) (hm' : m ≤ 100)
    (hlarge : ∀ i, 1 ≤ i → i < m → ksCutoff < ksTerm i t)
    (hlast : ksTerm m t ≤ ksCutoff ∨ m = 100) :
    ksSeries realMath t 100 1 1 0 = ksSum t m := by
  have hloop : ksSeries realMath t 100 (0 + 1) ((-1) ^ 0) (ksSum t 0) = ksSum t m :=
    ksSeries_eq hm (by omega) hlarge (hlast.imp_right fun h => by omega)
  simpa [ksSum] using hloop

/-! ## Where the series is cut off -/

theorem ksLimit_pos : 0 < ksLimit := by
  have hlog : 0 < Real.log (2 * 10 ^ 10) := Real.log_pos (by norm_num)
  exact Real.sqrt_pos.mpr (by positivity)

theorem ksLimit_le_four : ksLimit ≤ 4 := by
  have hexp : (3 / 2 : ℝ) ^ 64 ≤ Real.exp 32 := by
    have hhalf : (3 / 2 : ℝ) ≤ Real.exp (1 / 2) := by
      have := Real.add_one_le_exp (1 / 2 : ℝ)
      linarith
    calc (3 / 2 : ℝ) ^ 64 ≤ Real.exp (1 / 2) ^ 64 := pow_le_pow_left₀ (by norm_num) hhalf 64
      _ = Real.exp 32 := by
        rw [← Real.exp_nat_mul]
        norm_num
  have hlog : Real.log (2 * 10 ^ 10) ≤ 32 := by
    rw [Real.log_le_iff_le_exp (by norm_num)]
    exact le_trans (by norm_num) hexp
  rw [ksLimit, Real.sqrt_le_left (by norm_num), div_le_iff₀ two_pos]
  exact hlog.trans (by norm_num)

theorem ksCutoff_eq : ksCutoff = ksTerm 1 ksLimit := by
  have hlog : 0 < Real.log (2 * 10 ^ 10) := Real.log_pos (by norm_num)
  have hsq : ksLimit * ksLimit = Real.log (2 * 10 ^ 10) / 2 := Real.mul_self_sqrt (by positivity)
  have hexp : -2 * ((1 : ℕ) : ℝ) * ((1 : ℕ) : ℝ) * ksLimit * ksLimit = -Real.log (2 * 10 ^ 10) := by
    calc -2 * ((1 : ℕ) : ℝ) * ((1 : ℕ) : ℝ) * ksLimit * ksLimit = -2 * (ksLimit * ksLimit) := by
          push_cast
          ring
      _ = -Real.log (2 * 10 ^ 10) := by
          rw [hsq]
          ring
  rw [ksTerm, hexp, Real.exp_neg, Real.exp_log (by norm_num), ksCutoff]
  norm_num

/-- **The `k`-th term is small** from `ksLimit / k` on. -/
theorem ksTerm_le_ksCutoff_iff {k : ℕ} {t : ℝ} (ht : 0 ≤ t) :
    ksTerm k t ≤ ksCutoff ↔ ksLimit ≤ k * t := by
  rw [ksCutoff_eq, ksTerm_le_iff ksLimit_pos.le ht, Nat.cast_one, one_mul]

/-- The series stops at the first small term. -/
theorem ksSeries_eq_ksSum {t : ℝ} (ht : 0 < t) (hend : ksLimit ≤ 100 * t) :
    ksSeries realMath t 100 1 1 0 = ksSum t ⌈ksLimit / t⌉₊ := by
  refine ksSeries_first ?_ ?_ (fun i _ hi => ?_) (.inl ?_)
  · exact Nat.ceil_pos.mpr (div_pos ksLimit_pos ht)
  · exact Nat.ceil_le.mpr ((div_le_iff₀ ht).mpr (by exact_mod_cast hend))
  · have hlt := (lt_div_iff₀ ht).mp (Nat.lt_ceil.mp hi)
    rw [← not_le, ksTerm_le_ksCutoff_iff ht.le]
    exact not_le.mpr hlt
  · exact (ksTerm_le_ksCutoff_iff ht.le).mpr ((div_le_iff₀ ht).mp (Nat.le_ceil _))

/-- With no small term it has a hundred. -/
theorem ksSeries_eq_ksSum_hundred {t : ℝ} (ht : 0 < t) (hnone : 100 * t < ksLimit) :
    ksSeries realMath t 100 1 1 0 = ksSum t 100 := by
  refine ksSeries_first (by decide) le_rfl (fun i _ hi => ?_) (.inr rfl)
  have hi' : (i : ℝ) ≤ 100 := by exact_mod_cast hi.le
  rw [← not_le, ksTerm_le_ksCutoff_iff ht.le, not_le]
  exact (mul_le_mul_of_nonneg_right hi' ht.le).trans_lt hnone

/-- The first two terms are a lower bound, wherever the series stops. -/
theorem sub_le_ksSeries {t : ℝ} (ht : 0 < t) :
    ksTerm 1 t - ksTerm 2 t ≤ ksSeries realMath t 100 1 1 0 := by
  have hbound : ∀ m, 1 ≤ m → ksTerm 1 t - ksTerm 2 t ≤ ksSum t m := fun m hm =>
    sub_le_alternatingSum (ksTerm_antitone ht.le) (fun j => (ksTerm_pos (j + 1) t).le) hm
  rcases le_or_gt ksLimit (100 * t) with hend | hnone
  · rw [ksSeries_eq_ksSum ht hend]
    exact hbound _ (Nat.ceil_pos.mpr (div_pos ksLimit_pos ht))
  · rw [ksSeries_eq_ksSum_hundred ht hnone]
    exact hbound 100 (by decide)

/-- The first two terms, without the exponential. -/
theorem le_ksTerm_one_sub_ksTerm_two (t : ℝ) :
    2 * (1 - 2 * t ^ 2) - 2 * (1 + 8 * t ^ 2)⁻¹ ≤ ksTerm 1 t - ksTerm 2 t := by
  have hterm : ∀ k : ℕ, ksTerm k t = 2 * Real.exp (-(2 * k ^ 2 * t ^ 2)) := by
    intro k
    rw [ksTerm]
    congr 2
    ring
  have hfirst : 1 - 2 * t ^ 2 ≤ Real.exp (-(2 * t ^ 2)) := Real.one_sub_le_exp_neg _
  have hsecond : Real.exp (-(8 * t ^ 2)) ≤ (1 + 8 * t ^ 2)⁻¹ := by
    have hexp := Real.add_one_le_exp (8 * t ^ 2)
    rw [Real.exp_neg]
    exact inv_anti₀ (by positivity) (by linarith)
  rw [hterm, hterm]
  norm_num
  linarith

/-! ## Where the truncated series falls -/

theorem ksTerm_eq_pow (k : ℕ) (t : ℝ) : ksTerm k t = 2 * Real.exp (-2 * t * t) ^ (k * k) := by
  have hexp : -2 * (k : ℝ) * k * t * t = ((k * k : ℕ) : ℝ) * (-2 * t * t) := by
    rw [Nat.cast_mul]
    ring
  rw [ksTerm, hexp, Real.exp_nat_mul]

/-- From the point on where the fifth term is small the first is below 1. -/
theorem two_mul_exp_lt_one {t : ℝ} (h : ksLimit ≤ 5 * t) : 2 * Real.exp (-2 * t * t) < 1 := by
  have ht : 0 ≤ t := by
    have := ksLimit_pos
    linarith
  have hfifth : ksTerm 5 t ≤ ksCutoff := (ksTerm_le_ksCutoff_iff ht).mpr (by exact_mod_cast h)
  rw [ksTerm_eq_pow, ksCutoff] at hfifth
  by_contra hge
  have hhalf : 1 / 2 ≤ Real.exp (-2 * t * t) := by linarith
  have hpow : (1 / 2 : ℝ) ^ 25 ≤ Real.exp (-2 * t * t) ^ (5 * 5) :=
    pow_le_pow_left₀ (by norm_num) hhalf 25
  norm_num at hpow hfifth
  linarith

/-- **Cut off alike, the series falls**, from where the first term is below 1. -/
theorem ksSum_antitone {t t' : ℝ} (hle : t ≤ t') (ht : 0 ≤ t)
    (hsmall : 2 * Real.exp (-2 * t * t) ≤ 1) (m : ℕ) : ksSum t' m ≤ ksSum t m := by
  have hexp : Real.exp (-2 * t' * t') ≤ Real.exp (-2 * t * t) := by
    have hsq : t * t ≤ t' * t' := mul_le_mul hle hle ht (ht.trans hle)
    exact Real.exp_le_exp.mpr (by linarith)
  have hpos : 0 ≤ Real.exp (-2 * t' * t') := (Real.exp_pos _).le
  refine alternatingSum_le_of_antitone_sub (fun i j hij => ?_) (fun j => ?_) m
  · have hdraw := pow_sub_pow_antitone hpos hexp hsmall (n := (i + 1) * (i + 1))
      (m := (j + 1) * (j + 1)) (Nat.mul_pos (Nat.succ_pos i) (Nat.succ_pos i))
      (Nat.mul_le_mul (Nat.succ_le_succ hij) (Nat.succ_le_succ hij))
    simp only [ksTerm_eq_pow]
    linarith
  · rw [ksTerm_eq_pow, ksTerm_eq_pow]
    have hpow := pow_le_pow_left₀ hpos hexp ((j + 1) * (j + 1))
    linarith

/-- The sum is between nothing and the first term. -/
theorem ksSum_mem {t : ℝ} (ht : 0 ≤ t) (m : ℕ) :
    0 ≤ ksSum t m ∧ ksSum t m ≤ 2 * Real.exp (-2 * t * t) := by
  have hfirst : ksTerm (0 + 1) t = 2 * Real.exp (-2 * t * t) := by
    rw [ksTerm_eq_pow]
    simp
  have hmem := alternatingSum_mem (ksTerm_antitone ht) (fun j => (ksTerm_pos (j + 1) t).le) m
  rw [hfirst] at hmem
  exact hmem

theorem ksSum_succ (t : ℝ) (m : ℕ) :
    ksSum t (m + 1) = ksSum t m + (-1) ^ m * ksTerm (m + 1) t :=
  alternatingSum_succ _ m

theorem continuous_ksSum (m : ℕ) : Continuous fun t => ksSum t m := by
  induction m with
  | zero => exact continuous_const
  | succ m ih =>
    simp only [ksSum_succ, ksTerm]
    fun_prop

/-! ## Where a term is lost -/

/-- **The number of terms falls with the statistic**, and where it falls to
an even number, or not at all, so does the sum. -/
theorem ksSum_ceil_le {t t' : ℝ} (hle : t ≤ t') (ht : 0 < t)
    (hsmall : 2 * Real.exp (-2 * t * t) ≤ 1)
    (hodd : ∀ k : ℕ, Odd k → k * t < ksLimit → k * t' < ksLimit) :
    ksSum t' ⌈ksLimit / t'⌉₊ ≤ ksSum t ⌈ksLimit / t⌉₊ := by
  have ht' : 0 < t' := ht.trans_le hle
  have hbefore : ∀ i < ⌈ksLimit / t⌉₊, (i : ℝ) * t < ksLimit := fun i hi =>
    (lt_div_iff₀ ht).mp (Nat.lt_ceil.mp hi)
  have hend : ksLimit ≤ (⌈ksLimit / t'⌉₊ : ℝ) * t' := (div_le_iff₀ ht').mp (Nat.le_ceil _)
  have hfewer : ⌈ksLimit / t'⌉₊ ≤ ⌈ksLimit / t⌉₊ :=
    Nat.ceil_le_ceil (div_le_div_of_nonneg_left ksLimit_pos.le ht hle)
  generalize ⌈ksLimit / t'⌉₊ = m' at hend hfewer ⊢
  generalize ⌈ksLimit / t⌉₊ = m at hbefore hfewer ⊢
  have hanti := ksSum_antitone hle ht.le hsmall
  rcases eq_or_lt_of_le hfewer with rfl | hlt
  · exact hanti m'
  · have heven : Even m' := by
      rw [← Nat.not_odd_iff_even]
      exact fun h => absurd (hodd m' h (hbefore m' hlt)) (not_lt.mpr hend)
    have hnext : m = m' + 1 := by
      by_contra hne
      have hlater := hodd (m' + 1) heven.add_one (hbefore (m' + 1) (by omega))
      push_cast at hlater
      linarith
    have hterm := ksTerm_pos (m' + 1) t
    rw [hnext, ksSum_succ, heven.neg_one_pow, one_mul]
    linarith [hanti m']

/-- **Where it falls to an odd number the sum goes up.** -/
theorem exists_ksSum_lt {t l : ℝ} {k : ℕ} (ht : 0 < t) (hl : l < t) (hk : Odd k)
    (hkt : k * t = ksLimit) (hsmall : 2 * Real.exp (-2 * t * t) < 1) :
    ∃ t', l < t' ∧ t' < t ∧ 0 < t' ∧ 2 * Real.exp (-2 * t' * t') < 1 ∧
      ksSum t' ⌈ksLimit / t'⌉₊ < ksSum t ⌈ksLimit / t⌉₊ := by
  have hkpos : (0 : ℝ) < k := Nat.cast_pos.mpr hk.pos
  have hcount : ⌈ksLimit / t⌉₊ = k := by
    rw [← hkt, mul_div_cancel_right₀ _ ht.ne', Nat.ceil_natCast]
  -- Just before `t` there is one term more, and it is taken off.
  have hdrop : ksSum t (k + 1) < ksSum t k := by
    have hterm := ksTerm_pos (k + 1) t
    rw [ksSum_succ, hk.neg_one_pow]
    linarith
  have hsum : ∀ᶠ t' in nhdsWithin t (Set.Iio t), ksSum t' (k + 1) < ksSum t k :=
    ((continuous_ksSum (k + 1)).continuousAt.eventually_lt_const hdrop).filter_mono
      nhdsWithin_le_nhds
  have hfirst : ∀ᶠ t' in nhdsWithin t (Set.Iio t), 2 * Real.exp (-2 * t' * t') < 1 := by
    have hcont : Continuous fun t' : ℝ => 2 * Real.exp (-2 * t' * t') := by fun_prop
    exact (hcont.continuousAt.eventually_lt_const hsmall).filter_mono nhdsWithin_le_nhds
  have hlower : max l (ksLimit / (k + 1)) < t := by
    refine max_lt hl ?_
    rw [div_lt_iff₀ (by positivity), ← hkt]
    linarith
  have hnear : ∀ᶠ t' in nhdsWithin t (Set.Iio t), t' ∈ Set.Ioo (max l (ksLimit / (k + 1))) t :=
    Ioo_mem_nhdsLT hlower
  obtain ⟨t', ⟨hmax, hlt⟩, hsum, hfirst⟩ := (hnear.and (hsum.and hfirst)).exists
  obtain ⟨hl', hmore⟩ := max_lt_iff.mp hmax
  have ht' : 0 < t' := (div_pos ksLimit_pos (by positivity)).trans hmore
  have hcount' : ⌈ksLimit / t'⌉₊ = k + 1 := by
    rw [Nat.ceil_eq_iff (Nat.succ_ne_zero k), Nat.succ_sub_one, lt_div_iff₀ ht', div_le_iff₀ ht',
      ← hkt]
    constructor
    · exact mul_lt_mul_of_pos_left hlt hkpos
    · rw [hkt]
      push_cast
      rw [div_lt_iff₀ (by positivity)] at hmore
      linarith
  refine ⟨t', hl', hlt, ht', hfirst, ?_⟩
  rw [hcount, hcount']
  exact hsum

/-! ## Next to zero -/

/-- Neighbouring terms differ by little where the statistic is small. -/
theorem ksTerm_sub_ksTerm_succ_le (k : ℕ) (t : ℝ) :
    ksTerm k t - ksTerm (k + 1) t ≤ 4 * (2 * k + 1) * t ^ 2 := by
  have hsplit : Real.exp (-2 * ((k + 1 : ℕ) : ℝ) * ((k + 1 : ℕ) : ℝ) * t * t) =
      Real.exp (-2 * k * k * t * t) * Real.exp (-(2 * (2 * k + 1) * t ^ 2)) := by
    rw [← Real.exp_add]
    congr 1
    push_cast
    ring
  have hfirst : Real.exp (-2 * k * k * t * t) ≤ 1 := by
    refine Real.exp_le_one_iff.mpr ?_
    have hsq : 0 ≤ ((k : ℝ) * t) ^ 2 := sq_nonneg _
    linarith
  have hgap : 1 - Real.exp (-(2 * (2 * k + 1) * t ^ 2)) ≤ 2 * (2 * k + 1) * t ^ 2 := by
    have := Real.one_sub_le_exp_neg (2 * (2 * (k : ℝ) + 1) * t ^ 2)
    linarith
  have hpos : 0 ≤ 2 * (2 * (k : ℝ) + 1) * t ^ 2 := by positivity
  have hexp := Real.exp_pos (-2 * (k : ℝ) * k * t * t)
  rw [ksTerm, ksTerm, hsplit]
  calc 2 * Real.exp (-2 * k * k * t * t) -
        2 * (Real.exp (-2 * k * k * t * t) * Real.exp (-(2 * (2 * k + 1) * t ^ 2)))
      = 2 * (Real.exp (-2 * k * k * t * t) * (1 - Real.exp (-(2 * (2 * k + 1) * t ^ 2)))) := by ring
    _ ≤ 2 * (1 * (2 * (2 * k + 1) * t ^ 2)) := by
      have hprod := mul_le_mul hfirst hgap
        (by have := Real.exp_le_one_iff.mpr (neg_nonpos.mpr hpos); linarith) zero_le_one
      linarith
    _ = 4 * (2 * k + 1) * t ^ 2 := by ring

/-- An even number of terms cancel. -/
theorem ksSum_even_le (t : ℝ) (m : ℕ) : ksSum t (2 * m) ≤ 4 * (2 * m ^ 2 + m) * t ^ 2 := by
  induction m with
  | zero => simp [ksSum]
  | succ m ih =>
    have hpair := ksTerm_sub_ksTerm_succ_le (2 * m + 1) t
    have hsum : ksSum t (2 * (m + 1)) =
        ksSum t (2 * m) + (ksTerm (2 * m + 1) t - ksTerm (2 * m + 1 + 1) t) := by
      rw [show 2 * (m + 1) = 2 * m + 1 + 1 by ring, ksSum_succ, ksSum_succ,
        (even_two_mul m).neg_one_pow, (even_two_mul m).add_one.neg_one_pow]
      ring
    rw [hsum]
    push_cast at hpair ⊢
    linarith

end Congine
