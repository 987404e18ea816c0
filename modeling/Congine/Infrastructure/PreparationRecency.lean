import Congine.Common.Recency
import Congine.Common.Runs
import Congine.Infrastructure.SchemaPreparation
/-!
# The preparation cache over its history

A key is touched by a mark and by a lookup that finds it. Read from the
newest on, the markers are the keys touched last, as many as there is
room for: so a lookup finds a key exactly when it has been marked and
fewer than `capacity` others have been touched since it was.
-/

namespace Congine

variable {Digest : Type} [DecidableEq Digest]

/-- A call of the cache. -/
inductive PreparationCall (Digest : Type) where
  | isPrepared (key : CacheKey Digest)
  | markPrepared (key : CacheKey Digest)
  deriving DecidableEq

namespace PreparationCall

open SchemaPreparationCache

def step : PreparationCall Digest → SchemaPreparationCache Digest → SchemaPreparationCache Digest
  | isPrepared key, cache => (cache.isPrepared key).2
  | markPrepared key, cache => cache.markPrepared key

/-- The key a call touches. -/
def touched : PreparationCall Digest → SchemaPreparationCache Digest → Option (CacheKey Digest)
  | isPrepared key, cache => if (cache.isPrepared key).1 then some key else none
  | markPrepared key, _ => some key

/-- The keys the calls of a run touch, the oldest first. -/
def touches : List (PreparationCall Digest) → SchemaPreparationCache Digest →
    List (CacheKey Digest)
  | [], _ => []
  | call :: calls, cache => (call.touched cache).toList ++ touches calls (call.step cache)

/-- A mark of a key that has no marker. -/
def inserts : PreparationCall Digest → SchemaPreparationCache Digest → Bool
  | isPrepared _, _ => false
  | markPrepared key, cache => key ∉ cache.entries

/-- The marks of absent keys in a run. -/
def insertions : List (PreparationCall Digest) → SchemaPreparationCache Digest → ℕ
  | [], _ => 0
  | call :: calls, cache => (call.inserts cache).toNat + insertions calls (call.step cache)

def isLookup : PreparationCall Digest → Bool
  | isPrepared _ => true
  | markPrepared _ => false

/-! ## One call -/

theorem step_capacity (call : PreparationCall Digest) (cache : SchemaPreparationCache Digest) :
    (call.step cache).capacity = cache.capacity := by
  cases call with
  | isPrepared key =>
    simp only [step, SchemaPreparationCache.isPrepared]
    split_ifs
    · rfl
    · rfl
  | markPrepared key => rfl

/-- The markers after a history of touches. -/
def Follows (history : List (CacheKey Digest)) (cache : SchemaPreparationCache Digest) : Prop :=
  cache.entries.reverse = (recency history).take cache.capacity

variable {history : List (CacheKey Digest)} {cache : SchemaPreparationCache Digest}
  {key : CacheKey Digest}

theorem Follows.mem_iff (h : Follows history cache) :
    key ∈ cache.entries ↔
      key ∈ history ∧ (touchedSince history key).toFinset.card < cache.capacity := by
  rw [← mem_take_recency_iff, ← h, List.mem_reverse]

theorem Follows.length_le (h : Follows history cache) :
    cache.entries.length ≤ cache.capacity := by
  rw [← List.length_reverse, h, List.length_take]
  omega

theorem Follows.nodup (h : Follows history cache) : cache.entries.Nodup := by
  rw [← List.nodup_reverse, h]
  exact (nodup_recency history).sublist (List.take_sublist _ _)

theorem reverse_moveToEnd {entries : List (CacheKey Digest)} (h : entries.Nodup) :
    (moveToEnd entries key).reverse = key :: entries.reverse.erase key := by
  rw [moveToEnd, List.reverse_append, List.reverse_singleton, List.singleton_append,
    reverse_erase_of_nodup h]

/-- **A call touches what it says it touches.** -/
theorem Follows.step (h : Follows history cache) (call : PreparationCall Digest) :
    Follows (history ++ (call.touched cache).toList) (call.step cache) := by
  cases call with
  | isPrepared key =>
    by_cases hkey : key ∈ cache.entries
    · have hheld : cache.entries.reverse.length ≤ cache.capacity := by
        rw [List.length_reverse]
        exact h.length_le
      simp only [touched, if_true, Option.toList_some, PreparationCall.step, Follows,
        SchemaPreparationCache.isPrepared, hkey]
      rw [reverse_moveToEnd h.nodup, ← refresh_of_mem hheld (List.mem_reverse.mpr hkey), h,
        refresh_take_recency cache.capacity_pos]
    · have hmissed : (cache.isPrepared key).1 = false := by
        rw [← Bool.not_eq_true, isPrepared_iff]
        exact hkey
      simpa [touched, hmissed, PreparationCall.step, Follows, SchemaPreparationCache.isPrepared,
        hkey] using h
  | markPrepared key =>
    simp only [touched, Option.toList_some, PreparationCall.step, Follows,
      SchemaPreparationCache.markPrepared]
    rw [← List.take_reverse, reverse_moveToEnd h.nodup, ← refresh_eq_take cache.capacity_pos, h,
      refresh_take_recency cache.capacity_pos]

theorem step_lookups (call : PreparationCall Digest) (cache : SchemaPreparationCache Digest) :
    (call.step cache).hits + (call.step cache).misses =
      cache.hits + cache.misses + call.isLookup.toNat := by
  cases call with
  | isPrepared key =>
    simp only [step, SchemaPreparationCache.isPrepared, isLookup, Bool.toNat_true]
    split_ifs
    · show cache.hits + 1 + cache.misses = _
      omega
    · show cache.hits + (cache.misses + 1) = _
      omega
  | markPrepared key => rfl

/-- What a mark adds is there or has been evicted. -/
theorem step_evictions (call : PreparationCall Digest) (cache : SchemaPreparationCache Digest) :
    (call.step cache).evictions + (call.step cache).entries.length =
      cache.evictions + cache.entries.length + (call.inserts cache).toNat := by
  cases call with
  | isPrepared key =>
    simp only [step, SchemaPreparationCache.isPrepared, inserts, Bool.toNat_false]
    split_ifs with hkey
    · have hlength := List.length_erase_of_mem hkey
      have hpos := List.length_pos_of_mem hkey
      show cache.evictions + (cache.entries.erase key ++ [key]).length = _
      rw [List.length_append, List.length_singleton]
      omega
    · rfl
  | markPrepared key =>
    have hmoved : (moveToEnd cache.entries key).length =
        cache.entries.length + (inserts (.markPrepared key) cache).toNat := by
      rw [moveToEnd, List.length_append, List.length_singleton]
      by_cases hkey : key ∈ cache.entries
      · have hlength := List.length_erase_of_mem hkey
        have hpos := List.length_pos_of_mem hkey
        simp only [inserts, hkey, not_true_eq_false, decide_false, Bool.toNat_false]
        omega
      · simp [inserts, hkey, List.erase_of_not_mem hkey]
    simp only [step, SchemaPreparationCache.markPrepared, List.length_drop]
    omega

/-! ## Runs -/

theorem run_capacity (calls : List (PreparationCall Digest))
    (cache : SchemaPreparationCache Digest) : (run step calls cache).capacity = cache.capacity := by
  induction calls generalizing cache with
  | nil => rfl
  | cons call calls ih => rw [run_cons, ih, step_capacity]

theorem Follows.run (h : Follows history cache) (calls : List (PreparationCall Digest)) :
    Follows (history ++ touches calls cache) (Congine.run PreparationCall.step calls cache) := by
  induction calls generalizing history cache with
  | nil => simpa [touches] using h
  | cons call calls ih =>
    rw [touches, ← List.append_assoc]
    exact ih (h.step call)

theorem run_lookups (calls : List (PreparationCall Digest))
    (cache : SchemaPreparationCache Digest) :
    (run step calls cache).hits + (run step calls cache).misses =
      cache.hits + cache.misses + calls.countP isLookup := by
  induction calls generalizing cache with
  | nil => rfl
  | cons call calls ih =>
    have hstep := step_lookups call cache
    rw [run_cons, ih, List.countP_cons, hstep]
    cases call.isLookup
    · simp
    · simp only [Bool.toNat_true, if_true]
      omega

theorem run_evictions (calls : List (PreparationCall Digest))
    (cache : SchemaPreparationCache Digest) :
    (run step calls cache).evictions + (run step calls cache).entries.length =
      cache.evictions + cache.entries.length + insertions calls cache := by
  induction calls generalizing cache with
  | nil => rfl
  | cons call calls ih =>
    have hstep := step_evictions call cache
    rw [run_cons, ih, insertions, hstep]
    omega

/-- What has been touched has been marked: a lookup touches only what is
there. -/
theorem mem_touches_iff (h : Follows history cache) (calls : List (PreparationCall Digest)) :
    key ∈ history ++ touches calls cache ↔ key ∈ history ∨ .markPrepared key ∈ calls := by
  induction calls generalizing history cache with
  | nil => simp [touches]
  | cons call calls ih =>
    rw [touches, ← List.append_assoc, ih (h.step call), List.mem_append, Option.mem_toList,
      List.mem_cons, or_assoc]
    cases call with
    | isPrepared other =>
      simp only [touched, reduceCtorEq, false_or]
      constructor
      · rintro (hold | hhit | hlater)
        · exact Or.inl hold
        · split_ifs at hhit with hfound
          obtain rfl := Option.some.inj hhit
          exact Or.inl (h.mem_iff.mp (isPrepared_iff.mp hfound)).1
        · exact Or.inr hlater
      · rintro (hold | hlater)
        · exact Or.inl hold
        · exact Or.inr (Or.inr hlater)
    | markPrepared other =>
      simp only [touched, Option.some.injEq, markPrepared.injEq, eq_comm (a := other)]

/-! ## The law -/

/-- `__init__`, with room for at least one marker. -/
def fresh (capacity : ℕ) (h : 1 ≤ capacity) : SchemaPreparationCache Digest where
  capacity := capacity
  capacity_pos := h

theorem follows_fresh (capacity : ℕ) (h : 1 ≤ capacity) :
    Follows [] (fresh capacity h : SchemaPreparationCache Digest) := by
  simp [Follows, fresh, recency]

/-- **The preparation cache is an LRU set.** After any calls, a lookup finds
a key exactly when it has been marked and fewer than `capacity` others have
been touched since its latest touch; and the counters are those of the
calls. -/
theorem preparationCache_lru (capacity : ℕ) (h : 1 ≤ capacity)
    (calls : List (PreparationCall Digest)) (key : CacheKey Digest) :
    let cache := run step calls (fresh capacity h)
    ((cache.isPrepared key).1 = true ↔ .markPrepared key ∈ calls ∧
        (touchedSince (touches calls (fresh capacity h)) key).toFinset.card < capacity) ∧
      cache.entries.length ≤ capacity ∧
      cache.hits + cache.misses = calls.countP isLookup ∧
      cache.evictions + cache.entries.length = insertions calls (fresh capacity h) := by
  have hfollows : Follows (touches calls (fresh capacity h)) (run step calls (fresh capacity h)) :=
    (follows_fresh capacity h).run calls
  have hcapacity : (run step calls (fresh capacity h)).capacity = capacity :=
    run_capacity calls (fresh capacity h)
  have hmarked : key ∈ touches calls (fresh capacity h) ↔
      key ∈ ([] : List (CacheKey Digest)) ∨ .markPrepared key ∈ calls :=
    mem_touches_iff (follows_fresh capacity h) calls
  refine ⟨?_, ?_, ?_, ?_⟩
  · rw [isPrepared_iff, hfollows.mem_iff, hcapacity, hmarked]
    simp
  · have hlength := hfollows.length_le
    rwa [hcapacity] at hlength
  · have hlookups := run_lookups calls (fresh capacity h)
    simpa [fresh] using hlookups
  · have hevictions := run_evictions calls (fresh capacity h)
    simpa [fresh] using hevictions

/-- A content that is asked for is kept, and the other one goes. -/
theorem preparationCache_lru_two :
    let key : ℕ → CacheKey ℕ := fun digest => preparationKey digest 0 true
    let calls := [markPrepared (key 0), markPrepared (key 1), isPrepared (key 0),
      markPrepared (key 2)]
    ((run step calls (fresh 2 (by decide))).isPrepared (key 0)).1 = true ∧
      ¬ ((run step calls (fresh 2 (by decide))).isPrepared (key 1)).1 = true := by
  intro key calls
  refine ⟨(preparationCache_lru 2 (by decide) calls (key 0)).1.mpr (by decide), fun hit => ?_⟩
  have hsince := ((preparationCache_lru 2 (by decide) calls (key 1)).1.mp hit).2
  exact absurd hsince (by decide)

end PreparationCall

end Congine
