import Congine.Common.Text
import Congine.Infrastructure.ObjectGraph
import Mathlib.Data.List.Sort
/-!
# Schema identity and the cache of prepared schemas

The canonical form of an owned schema puts the members of every object in
key order; `CanonicalIdentity` has its text. The cache is
a bounded set of markers, the least recently used first, that says of a
content that `check_schema` has passed it.
-/

namespace Congine

/-! ## Canonical content -/

mutual

/-- The content with `sort_keys`. -/
def canonical : Json → Json
  | .arr xs => .arr (canonicalList xs)
  | .obj fs => .obj ((canonicalItems fs).insertionSort fun f g => f.1 ≤ g.1)
  | c => c

def canonicalList : List Json → List Json
  | [] => []
  | x :: xs => canonical x :: canonicalList xs

def canonicalItems : List (String × Json) → List (String × Json)
  | [] => []
  | (k, x) :: fs => (k, canonical x) :: canonicalItems fs

end

mutual

/-- An integer the interpreter refuses to print. -/
def hasLongInt : Json → Bool
  | .int i => 10 ^ Text.maxIntDigits ≤ i.natAbs
  | .arr xs => hasLongIntList xs
  | .obj fs => hasLongIntItems fs
  | _ => false

def hasLongIntList : List Json → Bool
  | [] => false
  | x :: xs => hasLongInt x || hasLongIntList xs

def hasLongIntItems : List (String × Json) → Bool
  | [] => false
  | (_, x) :: fs => hasLongInt x || hasLongIntItems fs

end

/-! ## Keys -/

/-- `CacheKey`. The class is the class object itself. -/
structure CacheKey (Digest : Type) where
  digest : Digest
  validatorCls : ℕ
  formatChecking : Bool
  version : ℕ
  deriving DecidableEq

/-- `CHECK_SCHEMA_CACHE_VERSION`. -/
def checkSchemaCacheVersion : ℕ := 1

variable {Digest : Type}

/-- `preparation_key`. -/
def preparationKey (digest : Digest) (validatorCls : ℕ) (formatChecking : Bool) :
    CacheKey Digest where
  digest := digest
  validatorCls := validatorCls
  formatChecking := formatChecking
  version := checkSchemaCacheVersion

/-! ## The cache -/

/-- `SchemaPreparationCache`: its markers in the order of their last use. -/
structure SchemaPreparationCache (Digest : Type) where
  entries : List (CacheKey Digest) := []
  capacity : ℕ := 256
  hits : ℕ := 0
  misses : ℕ := 0
  evictions : ℕ := 0
  capacity_pos : 1 ≤ capacity := by decide

namespace SchemaPreparationCache

variable (cache : SchemaPreparationCache Digest)

/-- `_clear`. -/
def clear : SchemaPreparationCache Digest := { cache with entries := [] }

variable [DecidableEq Digest]

/-- Markers are compared field by field. -/
instance : LawfulBEq (CacheKey Digest) := inferInstance

def moveToEnd (entries : List (CacheKey Digest)) (key : CacheKey Digest) :
    List (CacheKey Digest) :=
  entries.erase key ++ [key]

/-- `is_prepared`. -/
def isPrepared (key : CacheKey Digest) : Bool × SchemaPreparationCache Digest :=
  if key ∈ cache.entries then
    (true, { cache with entries := moveToEnd cache.entries key, hits := cache.hits + 1 })
  else (false, { cache with misses := cache.misses + 1 })

/-- `mark_prepared`: the oldest markers go while there are too many. -/
def markPrepared (key : CacheKey Digest) : SchemaPreparationCache Digest :=
  let entries := moveToEnd cache.entries key
  -- `while len(self._entries) > self._capacity`, taken at once.
  let surplus := entries.length - cache.capacity
  { cache with entries := entries.drop surplus, evictions := cache.evictions + surplus }

variable {cache} {key k : CacheKey Digest}

theorem mem_moveToEnd {entries : List (CacheKey Digest)} (h : k ∈ moveToEnd entries key) :
    k ∈ entries ∨ k = key := by
  rcases List.mem_append.mp h with h | h
  · exact .inl (List.mem_of_mem_erase h)
  · exact .inr (List.mem_singleton.mp h)

/-- Asking adds no marker. -/
theorem mem_isPrepared (h : k ∈ (cache.isPrepared key).2.entries) : k ∈ cache.entries := by
  unfold isPrepared at h
  split_ifs at h with hkey
  · rcases mem_moveToEnd h with h | rfl
    · exact h
    · exact hkey
  · exact h

theorem isPrepared_iff : (cache.isPrepared key).1 = true ↔ key ∈ cache.entries := by
  unfold isPrepared
  split_ifs with hkey
  · simp [hkey]
  · simp [hkey]

/-- **Marking adds the one marker**, and may drop others. -/
theorem mem_markPrepared (h : k ∈ (cache.markPrepared key).entries) :
    k ∈ cache.entries ∨ k = key :=
  mem_moveToEnd (List.mem_of_mem_drop h)

/-- **The cache stays within its capacity.** -/
theorem length_markPrepared : (cache.markPrepared key).entries.length ≤ cache.capacity := by
  simp only [markPrepared, List.length_drop]
  omega

end SchemaPreparationCache

end Congine
