import Congine.Kernel.Models
import Mathlib.Data.List.AList
/-!
# The schema cache

A least-frequently-used cache with a time-to-live per entry. Three maps
hold the entries, their frequencies and, per frequency, the keys at it
from the oldest on; the least frequency in use is a hint that an expiry
may leave stale and that the next eviction settles.

The three maps agree in every state an operation reaches (`LFUCache.WellFormed`),
so the lookups the code leaves unguarded never raise. Keys and values are
any types: the sync use case stores schemas under contract ids. The lock,
the sweeper thread and its lifecycle are left out.
-/

namespace Congine

variable {κ V : Type}

/-! ## Keys by frequency -/

/-- Frequency to its keys, from the oldest on. -/
abbrev Buckets (κ : Type) := AList fun _ : ℕ => List κ

namespace Buckets

/-- The keys at a frequency. -/
def keysAt (b : Buckets κ) (freq : ℕ) : List κ := (b.lookup freq).getD []

/-- Put what is left of a bucket back; an empty bucket goes. -/
def settle (b : Buckets κ) (freq : ℕ) (bucket : List κ) : Buckets κ :=
  if bucket.isEmpty then b.erase freq else b.insert freq bucket

/-- `setdefault(freq, OrderedDict())[key] = None`. -/
def add [DecidableEq κ] (b : Buckets κ) (freq : ℕ) (key : κ) : Buckets κ :=
  b.insert freq (if key ∈ b.keysAt freq then b.keysAt freq else b.keysAt freq ++ [key])

structure WellFormed (b : Buckets κ) : Prop where
  nonempty : ∀ freq bucket, b.lookup freq = some bucket → bucket ≠ []
  nodup : ∀ freq, (b.keysAt freq).Nodup

theorem keysAt_of_lookup {b : Buckets κ} {freq : ℕ} {bucket : List κ}
    (h : b.lookup freq = some bucket) : b.keysAt freq = bucket := by
  rw [keysAt, h]
  rfl

theorem lookup_of_mem_keysAt {b : Buckets κ} {freq : ℕ} {key : κ} (h : key ∈ b.keysAt freq) :
    b.lookup freq = some (b.keysAt freq) := by
  cases hl : b.lookup freq with
  | none => simp [keysAt, hl] at h
  | some bucket => rw [keysAt_of_lookup hl]

theorem keysAt_settle (b : Buckets κ) (freq : ℕ) (bucket : List κ) (freq' : ℕ) :
    (b.settle freq bucket).keysAt freq' = if freq' = freq then bucket else b.keysAt freq' := by
  unfold settle
  by_cases hf : freq' = freq
  · subst hf
    rw [if_pos rfl]
    split
    · next hempty =>
      rw [keysAt, AList.lookup_erase, List.isEmpty_iff.mp hempty]
      rfl
    · rw [keysAt, AList.lookup_insert]
      rfl
  · rw [if_neg hf]
    split
    · rw [keysAt, AList.lookup_erase_ne hf, keysAt]
    · rw [keysAt, AList.lookup_insert_ne hf, keysAt]

theorem WellFormed.settle {b : Buckets κ} (hb : b.WellFormed) (freq : ℕ) {bucket : List κ}
    (hbucket : bucket.Nodup) : (b.settle freq bucket).WellFormed where
  nonempty freq' bucket' h := by
    unfold Buckets.settle at h
    by_cases hf : freq' = freq
    · subst hf
      split at h
      · rw [AList.lookup_erase] at h
        cases h
      · next hne =>
        rw [AList.lookup_insert, Option.some.injEq] at h
        rw [← h]
        exact fun hnil => hne (by rw [hnil]; rfl)
    · split at h
      · rw [AList.lookup_erase_ne hf] at h
        exact hb.nonempty freq' bucket' h
      · rw [AList.lookup_insert_ne hf] at h
        exact hb.nonempty freq' bucket' h
  nodup freq' := by
    rw [keysAt_settle]
    split
    · exact hbucket
    · exact hb.nodup freq'

variable [DecidableEq κ]

theorem keysAt_add (b : Buckets κ) {freq : ℕ} {key : κ} (h : key ∉ b.keysAt freq) (freq' : ℕ) :
    (b.add freq key).keysAt freq' =
      if freq' = freq then b.keysAt freq ++ [key] else b.keysAt freq' := by
  unfold add
  rw [if_neg h]
  split
  · next hf => rw [hf, keysAt, AList.lookup_insert, Option.getD_some]
  · next hf => rw [keysAt, AList.lookup_insert_ne hf, keysAt]

theorem WellFormed.add {b : Buckets κ} (hb : b.WellFormed) {freq : ℕ} {key : κ}
    (h : key ∉ b.keysAt freq) : (b.add freq key).WellFormed where
  nonempty freq' bucket' hl := by
    by_cases hf : freq' = freq
    · subst hf
      rw [Buckets.add, if_neg h, AList.lookup_insert, Option.some.injEq] at hl
      rw [← hl]
      simp
    · rw [Buckets.add, AList.lookup_insert_ne hf] at hl
      exact hb.nonempty freq' bucket' hl
  nodup freq' := by
    rw [keysAt_add b h]
    split
    · rw [List.nodup_append]
      refine ⟨hb.nodup freq, List.nodup_singleton key, fun a ha c hc => ?_⟩
      rintro rfl
      exact h (List.mem_singleton.mp hc ▸ ha)
    · exact hb.nodup freq'

end Buckets

/-! ## The cache -/

structure LFUCache (κ V : Type) where
  capacity : ℕ := 500
  ttlSeconds : ℤ := 300
  /-- The value of a key and the instant it expires. -/
  keyToValue : AList fun _ : κ => V × ℚ := ∅
  keyToFreq : AList fun _ : κ => ℕ := ∅
  freqToKeys : Buckets κ := ∅
  minFreq : ℕ := 0

namespace LFUCache

variable [DecidableEq κ]

def isExpired (now expireAt : ℚ) : Bool := expireAt ≤ now

/-- `_increment_freq`: move a key to the next bucket. -/
def incrementFreq (c : LFUCache κ V) (key : κ) : Except Exc (LFUCache κ V) :=
  match c.keyToFreq.lookup key with
  | none => .error .keyError
  | some freq =>
      match c.freqToKeys.lookup freq with
      | none => .error .keyError
      | some bucket =>
          -- `del bucket[key]` raises on a key that is not there.
          if key ∈ bucket then
            let bucket := bucket.erase key
            .ok { c with
              freqToKeys := (c.freqToKeys.settle freq bucket).add (freq + 1) key
              -- The hint moves on only from a bucket it has emptied.
              minFreq := if bucket.isEmpty ∧ c.minFreq = freq then freq + 1 else c.minFreq
              keyToFreq := c.keyToFreq.insert key (freq + 1) }
          else .error .keyError

/-- Drop the oldest key of a bucket, whose other keys are given. -/
def popOldest (c : LFUCache κ V) (freq : ℕ) (key : κ) (bucket : List κ) : LFUCache κ V :=
  { c with
    freqToKeys := c.freqToKeys.settle freq bucket
    keyToValue := c.keyToValue.erase key
    keyToFreq := c.keyToFreq.erase key }

/-- `_evict_lfu`: the oldest key of the least frequency; a stale hint is
settled first. -/
def evictLfu (c : LFUCache κ V) : Except Exc (LFUCache κ V) :=
  match c.freqToKeys.lookup c.minFreq with
  | some (key :: bucket) => .ok (c.popOldest c.minFreq key bucket)
  | _ =>
      -- The hint may be stale after an expiry; the least frequency is then looked for.
      match c.freqToKeys.keys.min? with
      | none => .ok c
      | some freq =>
          match c.freqToKeys.lookup freq with
          | some (key :: bucket) => .ok ({ c with minFreq := freq }.popOldest freq key bucket)
          | _ => .error .keyError

/-- `_evict_key`: the hint is left as it is. -/
def evictKey (c : LFUCache κ V) (key : κ) : LFUCache κ V :=
  { c with
    keyToFreq := c.keyToFreq.erase key
    keyToValue := c.keyToValue.erase key
    freqToKeys :=
      match c.keyToFreq.lookup key with
      | none => c.freqToKeys
      | some freq =>
          match c.freqToKeys.lookup freq with
          | none => c.freqToKeys
          | some bucket => c.freqToKeys.settle freq (bucket.erase key) }

/-- `get`: an expired entry is evicted, a live one counts the read. -/
def get (c : LFUCache κ V) (now : ℚ) (key : κ) : Except Exc (Option V × LFUCache κ V) :=
  match c.keyToValue.lookup key with
  | none => .ok (none, c)
  | some (value, expireAt) =>
      if isExpired now expireAt then .ok (none, c.evictKey key)
      else (c.incrementFreq key).map fun c => (some value, c)

def size (c : LFUCache κ V) : ℕ := c.keyToValue.keys.length

/-- `put`: an entry that exists is updated in place and counts as read; a
new one evicts where the cache is full. -/
def put (c : LFUCache κ V) (now : ℚ) (key : κ) (value : V) (ttlSeconds : Option ℤ) :
    Except Exc (LFUCache κ V) :=
  if c.capacity = 0 then .ok c
  else
    let expireAt := now + (ttlSeconds.getD c.ttlSeconds : ℤ)
    if key ∈ c.keyToValue then
      { c with keyToValue := c.keyToValue.insert key (value, expireAt) }.incrementFreq key
    else
      -- An expired entry counts for the size and is evicted by its frequency, like any other.
      (if c.capacity ≤ c.size then c.evictLfu else .ok c).map fun c =>
        { c with
          keyToValue := c.keyToValue.insert key (value, expireAt)
          keyToFreq := c.keyToFreq.insert key 1
          freqToKeys := c.freqToKeys.add 1 key
          minFreq := 1 }

def clear (c : LFUCache κ V) : LFUCache κ V :=
  { c with keyToValue := ∅, keyToFreq := ∅, freqToKeys := ∅, minFreq := 0 }

def exists_ (c : LFUCache κ V) (now : ℚ) (key : κ) : Bool × LFUCache κ V :=
  match c.keyToValue.lookup key with
  | none => (false, c)
  | some (_, expireAt) =>
      if isExpired now expireAt then (false, c.evictKey key) else (true, c)

/-- The keys whose entry has expired. -/
def expiredKeys (c : LFUCache κ V) (now : ℚ) : List κ :=
  c.keyToValue.keys.filter fun key =>
    (c.keyToValue.lookup key).any fun entry => isExpired now entry.2

def sweepExpired (c : LFUCache κ V) (now : ℚ) : ℕ × LFUCache κ V :=
  let expired := c.expiredKeys now
  (expired.length, expired.foldl evictKey c)

end LFUCache

end Congine
