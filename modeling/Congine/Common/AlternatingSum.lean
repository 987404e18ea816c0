import Mathlib.Algebra.BigOperators.Group.Finset.Basic
import Mathlib.Algebra.Order.Ring.Basic
import Mathlib.Tactic.Linarith
import Mathlib.Tactic.Ring
/-!
# Truncated alternating sums

`f 0 - f 1 + f 2 - …` up to some number of terms. Where the terms fall
and are not negative the sum is between nothing and the first term,
wherever it is cut off; so of two such sums, cut off alike, the one with
the greater terms is the greater if the difference of the terms falls.
Powers of two numbers up to a half are like that.
-/

namespace Congine

variable {R : Type*} [CommRing R]

/-- `f 0 - f 1 + f 2 - …`, of `m` terms. -/
def alternatingSum (f : ℕ → R) (m : ℕ) : R := ∑ k ∈ Finset.range m, (-1) ^ k * f k

@[simp] theorem alternatingSum_zero (f : ℕ → R) : alternatingSum f 0 = 0 := rfl

/-- One more term. -/
theorem alternatingSum_succ (f : ℕ → R) (m : ℕ) :
    alternatingSum f (m + 1) = alternatingSum f m + (-1) ^ m * f m :=
  Finset.sum_range_succ _ m

/-- The first term, and the others taken off. -/
theorem alternatingSum_succ' (f : ℕ → R) (m : ℕ) :
    alternatingSum f (m + 1) = f 0 - alternatingSum (fun k => f (k + 1)) m := by
  have hrest : ∑ k ∈ Finset.range m, (-1) ^ (k + 1) * f (k + 1) =
      - alternatingSum (fun k => f (k + 1)) m := by
    rw [alternatingSum, ← Finset.sum_neg_distrib]
    refine Finset.sum_congr rfl fun k _ => ?_
    rw [pow_succ]
    ring
  rw [alternatingSum, Finset.sum_range_succ', hrest, pow_zero, one_mul]
  ring

theorem alternatingSum_sub (f g : ℕ → R) (m : ℕ) :
    alternatingSum (fun k => f k - g k) m = alternatingSum f m - alternatingSum g m := by
  simp only [alternatingSum, mul_sub, Finset.sum_sub_distrib]

variable [LinearOrder R] [IsStrictOrderedRing R] {f g : ℕ → R}

/-- **Falling terms bound the sum**, wherever it is cut off. -/
theorem alternatingSum_mem (hf : Antitone f) (hnonneg : ∀ k, 0 ≤ f k) (m : ℕ) :
    0 ≤ alternatingSum f m ∧ alternatingSum f m ≤ f 0 := by
  induction m generalizing f with
  | zero => exact ⟨le_rfl, hnonneg 0⟩
  | succ m ih =>
    have htail : Antitone fun k => f (k + 1) := fun a b hab => hf (Nat.succ_le_succ hab)
    obtain ⟨hpos, hle⟩ := ih htail fun k => hnonneg (k + 1)
    have hfirst : f 1 ≤ f 0 := hf (Nat.zero_le 1)
    rw [alternatingSum_succ']
    constructor
    · linarith
    · linarith

/-- The first two terms are a lower bound. -/
theorem sub_le_alternatingSum (hf : Antitone f) (hnonneg : ∀ k, 0 ≤ f k) {m : ℕ} (hm : 1 ≤ m) :
    f 0 - f 1 ≤ alternatingSum f m := by
  obtain ⟨m, rfl⟩ : ∃ n, m = n + 1 := ⟨m - 1, by omega⟩
  have htail : Antitone fun k => f (k + 1) := fun a b hab => hf (Nat.succ_le_succ hab)
  have hle := (alternatingSum_mem htail (fun k => hnonneg (k + 1)) m).2
  rw [alternatingSum_succ']
  linarith

/-- **Sums cut off alike compare as their terms do**, if these draw nearer. -/
theorem alternatingSum_le_of_antitone_sub (hanti : Antitone fun k => f k - g k)
    (hle : ∀ k, g k ≤ f k) (m : ℕ) : alternatingSum g m ≤ alternatingSum f m := by
  have hpos := (alternatingSum_mem hanti (fun k => sub_nonneg.mpr (hle k)) m).1
  rw [alternatingSum_sub] at hpos
  linarith

/-- Powers of two numbers up to a half draw nearer. -/
theorem pow_succ_sub_pow_succ_le {x y : R} (hy : 0 ≤ y) (hyx : y ≤ x) (hx : 2 * x ≤ 1) {n : ℕ}
    (hn : 1 ≤ n) : x ^ (n + 1) - y ^ (n + 1) ≤ x ^ n - y ^ n := by
  have hgap : y ^ n * (1 - y) ≤ x ^ n * (1 - x) := by
    induction n, hn using Nat.le_induction with
    | base =>
      have hprod : 0 ≤ (x - y) * (1 - x - y) := mul_nonneg (by linarith) (by linarith)
      linarith [hprod]
    | succ n _ ih =>
      have hpos : 0 ≤ y ^ n * (1 - y) := mul_nonneg (pow_nonneg hy n) (by linarith)
      calc y ^ (n + 1) * (1 - y) = y * (y ^ n * (1 - y)) := by ring
        _ ≤ x * (x ^ n * (1 - x)) := mul_le_mul hyx ih hpos (hy.trans hyx)
        _ = x ^ (n + 1) * (1 - x) := by ring
  calc x ^ (n + 1) - y ^ (n + 1) = x ^ n - y ^ n - (x ^ n * (1 - x) - y ^ n * (1 - y)) := by ring
    _ ≤ x ^ n - y ^ n := by linarith

theorem pow_sub_pow_antitone {x y : R} (hy : 0 ≤ y) (hyx : y ≤ x) (hx : 2 * x ≤ 1) {n m : ℕ}
    (hn : 1 ≤ n) (hnm : n ≤ m) : x ^ m - y ^ m ≤ x ^ n - y ^ n := by
  induction m, hnm using Nat.le_induction with
  | base => exact le_rfl
  | succ m hnm ih => exact (pow_succ_sub_pow_succ_le hy hyx hx (hn.trans hnm)).trans ih

end Congine
