import Congine.Common.Ecdf
import Congine.Kernel.Models
import Mathlib.Analysis.Real.Sqrt
import Mathlib.Analysis.SpecialFunctions.Log.Basic
/-!
# The drift engine

A bounded window of reference observations, and the two-sample
Kolmogorov-Smirnov test of it against a sample. The statistic is computed
at the points of the two samples only, by a right-sided search in each;
it is the supremum of the distance of the two empirical distribution
functions. Numbers are those of an ordered field, without rounding;
numpy's functions and the two of `math` are what the host has of them.
-/

namespace Congine

/-- What the engine calls of numpy: `sort`, `searchsorted` with
`side="right"` and `max`. -/
structure Numpy (R : Type) [LinearOrder R] where
  sort : List R → List R
  searchsorted : List R → R → ℕ
  max : List R → R
  sort_perm : ∀ xs : List R, (sort xs).Perm xs
  sort_pairwise : ∀ xs : List R, (sort xs).Pairwise (· ≤ ·)
  /-- `a[i-1] <= v < a[i]`, at the `i` returned. -/
  searchsorted_spec : ∀ (xs : List R) (v : R), xs.Pairwise (· ≤ ·) →
    (∀ x ∈ xs.take (searchsorted xs v), x ≤ v) ∧ ∀ x ∈ xs.drop (searchsorted xs v), v < x
  searchsorted_le : ∀ (xs : List R) (v : R), searchsorted xs v ≤ xs.length
  max_mem : ∀ xs : List R, xs ≠ [] → max xs ∈ xs
  le_max : ∀ xs : List R, ∀ x ∈ xs, x ≤ max xs

namespace Numpy

variable {R : Type} [LinearOrder R]

/-- The greatest element, with a value for none. -/
def greatest (default : R) : List R → R
  | [] => default
  | [x] => x
  | x :: y :: xs => Max.max x (greatest default (y :: xs))

theorem greatest_mem (default : R) : ∀ {xs : List R}, xs ≠ [] → greatest default xs ∈ xs
  | [x], _ => List.mem_singleton_self x
  | x :: y :: xs, _ => by
    rw [greatest]
    rcases max_choice x (greatest default (y :: xs)) with h | h
    · rw [h]
      exact List.mem_cons_self
    · rw [h]
      exact List.mem_cons_of_mem x (greatest_mem default (List.cons_ne_nil y xs))

theorem le_greatest (default : R) : ∀ {xs : List R} {x : R}, x ∈ xs → x ≤ greatest default xs
  | [y], x, h => (List.mem_singleton.mp h).le
  | y :: z :: xs, x, h => by
    rw [greatest]
    rcases List.mem_cons.mp h with rfl | h
    · exact le_max_left _ _
    · exact (le_greatest default h).trans (le_max_right _ _)

/-- What is left of a sorted list after the elements at or below `v` is above it. -/
theorem lt_of_mem_dropWhile {xs : List R} {v : R} (h : xs.Pairwise (· ≤ ·)) :
    ∀ x ∈ xs.dropWhile (· ≤ v), v < x := by
  induction xs with
  | nil => simp
  | cons a xs ih =>
    obtain ⟨ha, hxs⟩ := List.pairwise_cons.mp h
    by_cases hav : a ≤ v
    · rw [List.dropWhile_cons_of_pos (by simpa using hav)]
      exact ih hxs
    · rw [List.dropWhile_cons_of_neg (by simpa using hav)]
      have hva : v < a := not_le.mp hav
      intro x hx
      rcases List.mem_cons.mp hx with rfl | hx
      · exact hva
      · exact hva.trans_le (ha x hx)

/-- Sorting by insertion, searching from the front. -/
def byInsertion (default : R) : Numpy R where
  sort xs := xs.insertionSort (· ≤ ·)
  searchsorted xs v := (xs.takeWhile (· ≤ v)).length
  max xs := greatest default xs
  sort_perm xs := List.perm_insertionSort (· ≤ ·) xs
  sort_pairwise xs := List.pairwise_insertionSort (· ≤ ·) xs
  searchsorted_spec xs v hsorted := by
    have hcut : ∀ front back : List R, front ++ back = xs →
        xs.take front.length = front ∧ xs.drop front.length = back := by
      rintro front back rfl
      exact ⟨List.take_left, List.drop_left⟩
    obtain ⟨htake, hdrop⟩ := hcut _ _ (List.takeWhile_append_dropWhile (p := fun x => x ≤ v))
    rw [htake, hdrop]
    exact ⟨fun x hx => by simpa using List.mem_takeWhile_imp hx, lt_of_mem_dropWhile hsorted⟩
  searchsorted_le xs v := (List.takeWhile_sublist _).length_le
  max_mem xs h := greatest_mem default h
  le_max xs x h := le_greatest default h

end Numpy

/-- What the engine calls of `math`. -/
structure MathModule (R : Type) where
  sqrt : R → R
  exp : R → R

structure DriftResult (R : Type) where
  statistic : R
  pValue : R
  driftDetected : Bool
  nReference : ℕ
  nSample : ℕ

/-! ## The p-value -/

section PValue

variable {R : Type} [Field R] [LinearOrder R] (math : MathModule R)

/-- The terms of the series from the `k`-th on, of which `left` are left:
the first that is small enough is the last. -/
def ksSeries (t : R) : ℕ → ℕ → R → R → R
  | 0, _, _, total => total
  | left + 1, k, sign, total =>
      let term := 2 * sign * math.exp (-2 * k * k * t * t)
      if |term| ≤ 1 / 10 ^ 10 then total + term
      else ksSeries t left (k + 1) (-sign) (total + term)

/-- `_ks_p_value`. -/
def ksPValue (statistic : R) (n1 n2 : ℕ) : R :=
  let en := math.sqrt (n1 * n2 / (n1 + n2))
  let t := (en + 12 / 100 + 11 / 100 / en) * statistic
  if t ≤ 0 then 1 else max 0 (min 1 (ksSeries math t 100 1 1 0))

end PValue

/-! ## The engine -/

/-- `KSDriftEngine`; the window, the oldest observation first, is never
longer than its bound. -/
structure KSDriftEngine (R : Type) where
  threshold : R
  maxSamples : ℕ
  reference : List R
  maxSamples_pos : 0 < maxSamples
  length_le : reference.length ≤ maxSamples

namespace KSDriftEngine

variable {R : Type} [Field R] [LinearOrder R]

/-- `__init__`. -/
def init (threshold : R) (maxSamples : ℤ) : Except Exc (KSDriftEngine R) :=
  if h : maxSamples ≤ 0 then .error .valueError
  else .ok {
    threshold := threshold
    maxSamples := maxSamples.toNat
    reference := []
    maxSamples_pos := by omega
    length_le := Nat.zero_le _ }

/-- `add_reference`. -/
def addReference (engine : KSDriftEngine R) (value : R) : KSDriftEngine R :=
  { engine with
    -- A deque with `maxlen` drops from the other end.
    reference := (engine.reference ++ [value]).drop
      ((engine.reference ++ [value]).length - engine.maxSamples)
    length_le := by
      rw [List.length_drop]
      omega }

/-- The statistic of `detect`, on samples that are not empty. -/
def ksStatistic (np : Numpy R) (reference sample : List R) : R :=
  let ref := np.sort reference
  let cur := np.sort sample
  let merged := ref ++ cur
  np.max (merged.map fun v =>
    |(np.searchsorted ref v : R) / (ref.length : R) -
      (np.searchsorted cur v : R) / (cur.length : R)|)

/-- `detect`, with `none` for a numpy that is not installed. -/
def detect (math : MathModule R) (numpy : Option (Numpy R)) (engine : KSDriftEngine R)
    (current : List R) : Except Exc (DriftResult R) :=
  match numpy with
  | none => .error (.other "ImportError")
  | some np =>
      if engine.reference.isEmpty then .error .valueError
      else if current.isEmpty then .error .valueError
      else
        let statistic := ksStatistic np engine.reference current
        .ok {
          statistic := statistic
          pValue := ksPValue math statistic engine.reference.length current.length
          driftDetected := engine.threshold < statistic
          nReference := engine.reference.length
          nSample := current.length }

/-! ## The statistic -/

omit [Field R] in
/-- **A right-sided search in the sorted sample counts** what is at or below. -/
theorem searchsorted_sort (np : Numpy R) (xs : List R) (v : R) :
    np.searchsorted (np.sort xs) v = xs.countP fun x => x ≤ v := by
  obtain ⟨hbelow, habove⟩ := np.searchsorted_spec (np.sort xs) v (np.sort_pairwise xs)
  have htake : ((np.sort xs).take (np.searchsorted (np.sort xs) v)).countP (fun x => x ≤ v) =
      np.searchsorted (np.sort xs) v := by
    rw [List.countP_eq_length.mpr fun x hx => by simpa using hbelow x hx, List.length_take]
    have hle := np.searchsorted_le (np.sort xs) v
    omega
  have hdrop : ((np.sort xs).drop (np.searchsorted (np.sort xs) v)).countP (fun x => x ≤ v) = 0 :=
    List.countP_eq_zero.mpr fun x hx => by simpa using habove x hx
  calc np.searchsorted (np.sort xs) v
      = ((np.sort xs).take (np.searchsorted (np.sort xs) v) ++
          (np.sort xs).drop (np.searchsorted (np.sort xs) v)).countP fun x => x ≤ v := by
        rw [List.countP_append, htake, hdrop, Nat.add_zero]
    _ = (np.sort xs).countP fun x => x ≤ v := by rw [List.take_append_drop]
    _ = xs.countP fun x => x ≤ v := (np.sort_perm xs).countP_eq _

/-- **The statistic is the greatest distance at a point of the samples.** -/
theorem ksStatistic_eq (np : Numpy R) (reference sample : List R) :
    ksStatistic np reference sample =
      np.max ((np.sort reference ++ np.sort sample).map (ecdfDistance R reference sample)) := by
  simp only [ksStatistic, searchsorted_sort, (np.sort_perm reference).length_eq,
    (np.sort_perm sample).length_eq]
  rfl

theorem detect_ok (math : MathModule R) (np : Numpy R) (engine : KSDriftEngine R)
    (current : List R) (href : engine.reference ≠ []) (hcur : current ≠ []) :
    ∃ result, detect math (some np) engine current = .ok result ∧
      result.statistic = ksStatistic np engine.reference current := by
  simp only [detect, List.isEmpty_iff, href, hcur, if_false]
  exact ⟨_, rfl, rfl⟩

variable [IsStrictOrderedRing R]

/-- **The statistic is the supremum of the distance.** -/
theorem isLUB_ksStatistic (np : Numpy R) (reference sample : List R) (h : reference ≠ []) :
    IsLUB (Set.range (ecdfDistance R reference sample)) (ksStatistic np reference sample) := by
  rw [ksStatistic_eq]
  have hmem : ∀ v, v ∈ np.sort reference ++ np.sort sample ↔ v ∈ reference ++ sample := by
    intro v
    exact ((np.sort_perm reference).append (np.sort_perm sample)).mem_iff
  have hne : (np.sort reference ++ np.sort sample).map (ecdfDistance R reference sample) ≠ [] := by
    intro hnil
    obtain ⟨v, hv⟩ := List.exists_mem_of_ne_nil reference h
    have hsorted := (hmem v).mpr (List.mem_append_left sample hv)
    rw [List.map_eq_nil_iff.mp hnil] at hsorted
    cases hsorted
  refine isLUB_ecdfDistance ?_ fun m hm => ?_
  · obtain ⟨m, hm, heq⟩ := List.mem_map.mp (np.max_mem _ hne)
    exact ⟨m, (hmem m).mp hm, heq⟩
  · exact np.le_max _ _ (List.mem_map_of_mem ((hmem m).mpr hm))

/-- **The drift statistic is the two-sample distance**: the supremum over
the reals, between 0 and 1, the same for the samples exchanged and for
either reordered. -/
theorem detect_statistic (math : MathModule ℝ) (np : Numpy ℝ) (engine : KSDriftEngine ℝ)
    (current : List ℝ) (href : engine.reference ≠ []) (hcur : current ≠ []) :
    ∃ result, detect math (some np) engine current = .ok result ∧
      IsLUB (Set.range fun x : ℝ => |ecdf ℝ engine.reference x - ecdf ℝ current x|)
        result.statistic ∧
      0 ≤ result.statistic ∧ result.statistic ≤ 1 ∧
      (∀ engine' : KSDriftEngine ℝ, engine'.reference = current → ∃ result',
        detect math (some np) engine' engine.reference = .ok result' ∧
          result'.statistic = result.statistic) ∧
      ∀ (engine' : KSDriftEngine ℝ) (current' : List ℝ),
        engine'.reference.Perm engine.reference → current'.Perm current → ∃ result',
          detect math (some np) engine' current' = .ok result' ∧
            result'.statistic = result.statistic := by
  obtain ⟨result, hresult, heq⟩ := detect_ok math np engine current href hcur
  have hsup := isLUB_ksStatistic np engine.reference current href
  rw [← heq] at hsup
  -- A supremum is unique, so the statistic is that of any samples as far apart.
  have hsame : ∀ (engine' : KSDriftEngine ℝ) (current' : List ℝ), engine'.reference ≠ [] →
      current' ≠ [] → (∀ x, ecdfDistance ℝ engine'.reference current' x =
        ecdfDistance ℝ engine.reference current x) → ∃ result',
      detect math (some np) engine' current' = .ok result' ∧
        result'.statistic = result.statistic := by
    intro engine' current' href' hcur' hdistance
    obtain ⟨result', hresult', heq'⟩ := detect_ok math np engine' current' href' hcur'
    have hsup' := isLUB_ksStatistic np engine'.reference current' href'
    rw [← heq', funext hdistance] at hsup'
    exact ⟨result', hresult', hsup'.unique hsup⟩
  refine ⟨result, hresult, hsup, ?_, ?_, fun engine' hengine => ?_,
    fun engine' current' hpref hpcur => ?_⟩
  · exact (abs_nonneg _).trans (hsup.1 ⟨0, rfl⟩)
  · refine hsup.2 ?_
    rintro _ ⟨x, rfl⟩
    exact ecdfDistance_le_one engine.reference current x
  · refine hsame engine' engine.reference (hengine ▸ hcur) href fun x => ?_
    rw [hengine, ecdfDistance_comm]
  · have href' : engine'.reference ≠ [] := fun hnil => href (by simpa [hnil] using hpref)
    have hcur' : current' ≠ [] := fun hnil => hcur (by simpa [hnil] using hpcur)
    exact hsame engine' current' href' hcur' fun x => ecdfDistance_perm hpref hpcur x

/-- `math`, without rounding. -/
noncomputable def realMath : MathModule ℝ where
  sqrt := Real.sqrt
  exp := Real.exp

/-- A window of one observation against a sample that ties with it once. -/
theorem detect_statistic_tie :
    let engine : KSDriftEngine ℝ :=
      { threshold := 0, maxSamples := 1, reference := [0], maxSamples_pos := by decide,
        length_le := by decide }
    ∃ result, detect realMath (some (Numpy.byInsertion 0)) engine [0, 1] =
      .ok result ∧ 0 ≤ result.statistic ∧ result.statistic ≤ 1 := by
  intro engine
  obtain ⟨result, hresult, -, hnonneg, hle, -⟩ := detect_statistic realMath
    (Numpy.byInsertion 0) engine [0, 1] (List.cons_ne_nil 0 []) (List.cons_ne_nil 0 [1])
  exact ⟨result, hresult, hnonneg, hle⟩

end KSDriftEngine

/-! ## The p-value over the reals -/

/-- What a statistic is scaled by. -/
noncomputable def ksScale (n1 n2 : ℕ) : ℝ :=
  let en := Real.sqrt (n1 * n2 / (n1 + n2))
  en + 12 / 100 + 11 / 100 / en

/-- The size of the `k`-th term of the series. -/
noncomputable def ksTerm (k : ℕ) (t : ℝ) : ℝ := 2 * Real.exp (-2 * k * k * t * t)

/-- The size at which a term is the last. -/
noncomputable def ksCutoff : ℝ := 1 / 10 ^ 10

/-- Where the first term is the cut-off. -/
noncomputable def ksLimit : ℝ := Real.sqrt (Real.log (2 * 10 ^ 10) / 2)

end Congine
