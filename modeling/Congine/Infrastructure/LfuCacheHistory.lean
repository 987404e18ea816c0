import Congine.Common.FrequencyCache
import Congine.Common.Serve
import Congine.Infrastructure.LfuCacheSpec
/-!
# The schema cache and its history

The three maps and the hint stand for the abstract cache that counts uses
(`Refines`): a bucket holds the keys of its count from the earliest on, and
the hint is never above a count in use. Each operation restores that, so a
history is answered as the abstract cache answers it and an eviction takes
the key that reached the least count earliest.

Nothing is asked of the clock: an operation carries the instants it reads,
and a sweep reads one for each key.
-/

namespace Congine

variable {κ V : Type} [DecidableEq κ]

namespace LFUCache

/-! ## Operations -/

/-- `_sweep_expired_locked` reads the clock once for each key. -/
def expiredKeysAt (c : LFUCache κ V) (clock : κ → ℚ) : List κ :=
  c.keyToValue.keys.filter fun key =>
    (c.keyToValue.lookup key).any fun entry => isExpired (clock key) entry.2

def sweepExpiredAt (c : LFUCache κ V) (clock : κ → ℚ) : ℕ × LFUCache κ V :=
  let expired := c.expiredKeysAt clock
  (expired.length, expired.foldl evictKey c)

inductive Op (κ V : Type)
  | get (now : ℚ) (key : κ)
  | put (now : ℚ) (key : κ) (value : V) (ttlSeconds : Option ℤ)
  | exists_ (now : ℚ) (key : κ)
  | clear
  | sweepExpired (clock : κ → ℚ)
  | size

inductive Answer (V : Type)
  | found (value : Option V)
  | done
  | holds (stored : Bool)
  | count (keys : ℕ)
  deriving DecidableEq

def perform : Op κ V → LFUCache κ V → Except Exc (Answer V × LFUCache κ V)
  | .get now key, c => (c.get now key).map fun (found, c) => (.found found, c)
  | .put now key value ttlSeconds, c =>
      (c.put now key value ttlSeconds).map fun c => (.done, c)
  | .exists_ now key, c => .ok (.holds (c.exists_ now key).1, (c.exists_ now key).2)
  | .clear, c => .ok (.done, c.clear)
  | .sweepExpired clock, c =>
      .ok (.count (c.sweepExpiredAt clock).1, (c.sweepExpiredAt clock).2)
  | .size, c => .ok (.count c.size, c)

/-- The same operation of the abstract cache, given the default time-to-live. -/
noncomputable def intend (ttlSeconds : ℤ) :
    Op κ V → FrequencyCache κ V ℚ → Answer V × FrequencyCache κ V ℚ
  | .get now key, a => (.found (a.get now key).1, (a.get now key).2.tick)
  | .put now key value ttl, a => (.done, (a.put key value (now + (ttl.getD ttlSeconds : ℤ))).tick)
  | .exists_ now key, a => (.holds (a.holds now key).1, (a.holds now key).2.tick)
  | .clear, a => (.done, a.clear.tick)
  | .sweepExpired clock, a => (.count (a.sweep clock).1, (a.sweep clock).2.tick)
  | .size, a => (.count a.size, a.tick)

/-! ## What the maps stand for -/

structure Refines (c : LFUCache κ V) (a : FrequencyCache κ V ℚ) : Prop where
  wellFormed : c.WellFormed
  capacity_eq : c.capacity = a.capacity
  size_le : c.size ≤ c.capacity
  stored_eq : ∀ key, c.stored? key = (a.uses key).map fun use => (use.value, use.expireAt)
  freq_eq : ∀ key, c.keyToFreq.lookup key = (a.uses key).map Use.count
  /-- A bucket holds its keys from the earliest on. -/
  sorted : ∀ freq, a.InOrder (c.freqToKeys.keysAt freq)
  minFreq_le : ∀ key use, a.uses key = some use → c.minFreq ≤ use.count
  count_pos : ∀ key use, a.uses key = some use → 1 ≤ use.count
  since_lt : ∀ key use, a.uses key = some use → use.since < a.moment

variable {c : LFUCache κ V} {a : FrequencyCache κ V ℚ}

theorem Refines.new (capacity : ℕ) (ttlSeconds : ℤ) :
    Refines ({ capacity, ttlSeconds } : LFUCache κ V) { capacity } where
  wellFormed := wellFormed_new capacity ttlSeconds
  capacity_eq := rfl
  size_le := Nat.zero_le _
  stored_eq key := rfl
  freq_eq key := rfl
  sorted freq := by simp [Buckets.keysAt, FrequencyCache.InOrder]
  minFreq_le key use h := by cases h
  count_pos key use h := by cases h
  since_lt key use h := by cases h

theorem Refines.tick (h : Refines c a) : Refines c a.tick :=
  { h with since_lt := fun key use huse => Nat.lt_succ_of_lt (h.since_lt key use huse) }

theorem Refines.clear (h : Refines c a) : Refines c.clear a.clear :=
  { Refines.new c.capacity c.ttlSeconds with
    capacity_eq := h.capacity_eq
    since_lt := fun key use huse => by cases huse }

/-- The keys at a count. -/
theorem Refines.mem_keysAt (h : Refines c a) {key : κ} {freq : ℕ} :
    key ∈ c.freqToKeys.keysAt freq ↔ ∃ use, a.uses key = some use ∧ use.count = freq := by
  rw [h.wellFormed.mem_keysAt, h.freq_eq, Option.map_eq_some_iff]

theorem Refines.mem_keyToValue (h : Refines c a) {key : κ} :
    key ∈ c.keyToValue ↔ ∃ use, a.uses key = some use := by
  rw [mem_keyToValue_iff]
  simp only [h.stored_eq, Option.map_eq_some_iff]
  constructor
  · rintro ⟨_, use, huse, -⟩
    exact ⟨use, huse⟩
  · rintro ⟨use, huse⟩
    exact ⟨_, use, huse, rfl⟩

/-- The sizes are one. -/
theorem Refines.size_eq (h : Refines c a) : c.size = a.size := by
  have hset : a.stored = ↑c.keyToValue.keys.toFinset := by
    ext key
    rw [Finset.mem_coe, List.mem_toFinset, AList.mem_keys.symm, h.mem_keyToValue]
    exact Option.isSome_iff_exists
  rw [FrequencyCache.size, hset, Set.ncard_coe_finset,
    List.toFinset_card_of_nodup c.keyToValue.keys_nodup]
  rfl

/-! ## Dropping a key -/

/-- An eviction drops the key from every map. -/
theorem evictKey_lookup (c : LFUCache κ V) (key key' : κ) :
    (c.evictKey key).stored? key' = (if key' = key then none else c.stored? key') ∧
      (c.evictKey key).keyToFreq.lookup key' =
        if key' = key then none else c.keyToFreq.lookup key' := by
  by_cases hk : key' = key
  · subst hk
    simp [stored?, evictKey]
  · simp [stored?, evictKey, hk]

/-- And takes nothing else out of its bucket. -/
theorem keysAt_evictKey_sublist (hc : c.WellFormed) (key : κ) (freq : ℕ) :
    ((c.evictKey key).freqToKeys.keysAt freq).Sublist (c.freqToKeys.keysAt freq) := by
  rcases hfreq : c.keyToFreq.lookup key with _ | freq'
  · simp [evictKey, hfreq]
  · simp only [evictKey, hfreq, (lookup_bucket hc hfreq).2, Buckets.keysAt_settle]
    split
    · next heq =>
      rw [heq]
      exact List.erase_sublist
    · exact List.Sublist.refl _

theorem Refines.evictKey (h : Refines c a) (key : κ) : Refines (c.evictKey key) (a.erase key) where
  wellFormed := evictKey_wellFormed h.wellFormed key
  capacity_eq := h.capacity_eq
  size_le := by
    refine le_trans ?_ h.size_le
    rw [size, evictKey_keyToValue, AList.keys_erase]
    exact List.length_erase_le
  stored_eq key' := by
    rw [(evictKey_lookup c key key').1, FrequencyCache.erase_uses, h.stored_eq]
    split
    · rfl
    · rfl
  freq_eq key' := by
    rw [(evictKey_lookup c key key').2, FrequencyCache.erase_uses, h.freq_eq]
    split
    · rfl
    · rfl
  sorted freq := by
    have hsub := keysAt_evictKey_sublist h.wellFormed key freq
    refine FrequencyCache.InOrder.mono ((h.sorted freq).sublist hsub) fun k _ use huse => ?_
    exact ⟨use, (FrequencyCache.erase_uses_eq_some huse).2, rfl⟩
  minFreq_le key' use huse := h.minFreq_le key' use (FrequencyCache.erase_uses_eq_some huse).2
  count_pos key' use huse := h.count_pos key' use (FrequencyCache.erase_uses_eq_some huse).2
  since_lt key' use huse := h.since_lt key' use (FrequencyCache.erase_uses_eq_some huse).2

theorem foldl_evictKey_refines (keys : List κ) (h : Refines c a) :
    Refines (keys.foldl LFUCache.evictKey c) (keys.foldl FrequencyCache.erase a) := by
  induction keys generalizing c a with
  | nil => exact h
  | cons key keys ih => exact ih (h.evictKey key)

theorem foldl_erase_eq (keys : List κ) (a : FrequencyCache κ V ℚ) :
    keys.foldl FrequencyCache.erase a =
      { a with uses := fun key => if key ∈ keys then none else a.uses key } := by
  induction keys generalizing a with
  | nil => simp
  | cons k keys ih =>
    rw [List.foldl_cons, ih]
    have huses : (fun key => if key ∈ keys then none else (a.erase k).uses key) =
        fun key => if key ∈ k :: keys then none else a.uses key := by
      funext key
      rw [FrequencyCache.erase_uses]
      by_cases hk : key = k
      · simp [hk]
      · simp [hk]
    rw [huses]
    rfl

/-- A key swept out had expired when it was looked at. -/
theorem Refines.mem_expiredKeysAt (h : Refines c a) (clock : κ → ℚ) (key : κ) :
    key ∈ c.expiredKeysAt clock ↔ key ∈ a.expired clock := by
  simp only [expiredKeysAt, List.mem_filter, ← AList.mem_keys, h.mem_keyToValue,
    FrequencyCache.expired, Set.mem_ofPred_eq]
  change _ ∧ (c.stored? key).any _ = true ↔ _
  rw [h.stored_eq]
  constructor
  · rintro ⟨⟨use, huse⟩, hexp⟩
    rw [huse] at hexp
    exact ⟨use, huse, by simpa [isExpired] using hexp⟩
  · rintro ⟨use, huse, hexp⟩
    refine ⟨⟨use, huse⟩, ?_⟩
    rw [huse]
    simpa [isExpired] using hexp

/-- **A sweep drops what has expired**, and counts it. -/
theorem Refines.sweepExpiredAt (h : Refines c a) (clock : κ → ℚ) :
    (c.sweepExpiredAt clock).1 = (a.sweep clock).1 ∧
      Refines (c.sweepExpiredAt clock).2 (a.sweep clock).2 := by
  have hmem := h.mem_expiredKeysAt clock
  constructor
  · have hset : a.expired clock = ↑(c.expiredKeysAt clock).toFinset := by
      ext key
      rw [Finset.mem_coe, List.mem_toFinset, hmem]
    have hnodup : (c.expiredKeysAt clock).Nodup := c.keyToValue.keys_nodup.filter _
    rw [FrequencyCache.sweep, hset, Set.ncard_coe_finset, List.toFinset_card_of_nodup hnodup]
    rfl
  · have hfold := foldl_evictKey_refines (c.expiredKeysAt clock) h
    rw [foldl_erase_eq] at hfold
    have huses : (fun key => if key ∈ c.expiredKeysAt clock then none else a.uses key) =
        (a.sweep clock).2.uses := by
      funext key
      by_cases hk : key ∈ c.expiredKeysAt clock
      · have hexp := (hmem key).mp hk
        simp only [FrequencyCache.sweep, if_pos hk, if_pos hexp]
      · have hlive := mt (hmem key).mpr hk
        simp only [FrequencyCache.sweep, if_neg hk, if_neg hlive]
    rw [huses] at hfold
    exact hfold

/-! ## Counting a use -/

theorem Refines.overwrite (h : Refines c a) {key : κ} {use : Use V ℚ}
    (huse : a.uses key = some use) (value : V) (expireAt : ℚ) :
    Refines { c with keyToValue := c.keyToValue.insert key (value, expireAt) }
      (a.record key { use with value, expireAt }) := by
  have hkey : key ∈ c.keyToValue := h.mem_keyToValue.mpr ⟨use, huse⟩
  -- The other key is as it was; this one has its count and moment still.
  have hback : ∀ key' use', (a.record key { use with value, expireAt }).uses key' = some use' →
      ∃ use₀, a.uses key' = some use₀ ∧ use₀.count = use'.count ∧ use₀.since = use'.since := by
    intro key' use' h'
    rcases FrequencyCache.record_uses_eq_some h' with ⟨rfl, rfl⟩ | ⟨-, h'⟩
    · exact ⟨use, huse, rfl, rfl⟩
    · exact ⟨use', h', rfl, rfl⟩
  refine ⟨h.wellFormed.overwrite hkey _, h.capacity_eq, ?_, fun key' => ?_, fun key' => ?_,
    fun freq => ?_, fun key' use' h' => ?_, fun key' use' h' => ?_, fun key' use' h' => ?_⟩
  · rw [size, (length_insert_le c.keyToValue key _).2 hkey]
    exact h.size_le
  · rw [stored?, FrequencyCache.record_uses]
    by_cases hk : key' = key
    · rw [hk, AList.lookup_insert, if_pos rfl]
      rfl
    · rw [AList.lookup_insert_ne hk, if_neg hk]
      exact h.stored_eq key'
  · rw [FrequencyCache.record_uses]
    by_cases hk : key' = key
    · rw [hk, if_pos rfl, h.freq_eq, huse]
      rfl
    · rw [if_neg hk]
      exact h.freq_eq key'
  · refine (h.sorted freq).mono fun k _ use' h' => ?_
    obtain ⟨use₀, h₀, -, hsince⟩ := hback k use' h'
    exact ⟨use₀, h₀, hsince⟩
  · obtain ⟨use₀, h₀, hcount, -⟩ := hback key' use' h'
    exact hcount ▸ h.minFreq_le key' use₀ h₀
  · obtain ⟨use₀, h₀, hcount, -⟩ := hback key' use' h'
    exact hcount ▸ h.count_pos key' use₀ h₀
  · obtain ⟨use₀, h₀, -, hsince⟩ := hback key' use' h'
    exact hsince ▸ h.since_lt key' use₀ h₀

/-- **A use moves its key to the end of the next bucket.** -/
theorem Refines.movedUp (h : Refines c a) {key : κ} {use : Use V ℚ} (huse : a.uses key = some use) :
    Refines (c.movedUp key use.count)
      (a.record key { use with count := use.count + 1, since := a.moment }).tick := by
  have hfreq : c.keyToFreq.lookup key = some use.count := by rw [h.freq_eq, huse]; rfl
  obtain ⟨-, hsettled⟩ := settle_erase h.wellFormed hfreq
  have hout := notMem_keysAt_settle h.wellFormed hfreq
  refine ⟨movedUp_wellFormed h.wellFormed hfreq, h.capacity_eq, h.size_le, fun key' => ?_,
    fun key' => ?_, fun freq => ?_, fun key' use' h' => ?_, fun key' use' h' => ?_,
    fun key' use' h' => ?_⟩
  · refine (h.stored_eq key').trans ?_
    rw [FrequencyCache.tick, FrequencyCache.record_uses]
    by_cases hk : key' = key
    · rw [hk, if_pos rfl, huse]
      rfl
    · rw [if_neg hk]
  · rw [FrequencyCache.tick, FrequencyCache.record_uses, LFUCache.movedUp]
    by_cases hk : key' = key
    · rw [hk, if_pos rfl, AList.lookup_insert]
      rfl
    · rw [if_neg hk, AList.lookup_insert_ne hk]
      exact h.freq_eq key'
  · -- What is left of a bucket is in order still.
    have hsettledOrder : ∀ freq, a.InOrder
        ((c.freqToKeys.settle use.count ((c.freqToKeys.keysAt use.count).erase key)).keysAt
          freq) := by
      intro freq
      rw [Buckets.keysAt_settle]
      split
      · exact (h.sorted use.count).sublist List.erase_sublist
      · exact h.sorted freq
    rw [LFUCache.movedUp]
    simp only [Buckets.keysAt_add _ (hout _)]
    split
    · exact (hsettledOrder _).concat (hout _) h.since_lt rfl
    · exact (hsettledOrder freq).record (hout freq) _
  · have hmin := h.minFreq_le
    rw [LFUCache.movedUp]
    simp only
    rcases FrequencyCache.record_uses_eq_some h' with ⟨rfl, rfl⟩ | ⟨hk, h'⟩
    · have := hmin key' use huse
      simp only
      split <;> omega
    · have := hmin key' use' h'
      split
      · next hempty =>
        -- The bucket of the least count is empty, so another key counts more.
        have hne : use'.count ≠ use.count := by
          intro heq
          have hat : key' ∈ c.freqToKeys.keysAt use.count := h.mem_keysAt.mpr ⟨use', h', heq⟩
          have hin := (List.mem_erase_of_ne hk).mpr hat
          rw [List.isEmpty_iff.mp hempty.1] at hin
          cases hin
        omega
      · exact this
  · rcases FrequencyCache.record_uses_eq_some h' with ⟨-, rfl⟩ | ⟨-, h'⟩
    · exact Nat.succ_pos _
    · exact h.count_pos key' use' h'
  · rcases FrequencyCache.record_uses_eq_some h' with ⟨-, rfl⟩ | ⟨-, h'⟩
    · exact Nat.lt_succ_self _
    · exact Nat.lt_succ_of_lt (h.since_lt key' use' h')

/-- The lookups of a use do not miss. -/
theorem Refines.incrementFreq (h : Refines c a) {key : κ} {use : Use V ℚ}
    (huse : a.uses key = some use) :
    c.incrementFreq key = .ok (c.movedUp key use.count) := by
  refine incrementFreq_eq h.wellFormed ?_
  rw [h.freq_eq, huse]
  rfl

/-! ## Inserting a key -/

theorem Refines.insertNew (h : Refines c a) {key : κ} (hkey : a.uses key = none)
    (hroom : c.size < c.capacity) (value : V) (expireAt : ℚ) :
    Refines
      { c with
        keyToValue := c.keyToValue.insert key (value, expireAt)
        keyToFreq := c.keyToFreq.insert key 1
        freqToKeys := c.freqToKeys.add 1 key
        minFreq := 1 }
      (a.record key { value, expireAt, count := 1, since := a.moment }).tick := by
  have hnew : key ∉ c.keyToValue := by
    rw [h.mem_keyToValue, hkey]
    rintro ⟨use, huse⟩
    cases huse
  have hout : ∀ freq, key ∉ c.freqToKeys.keysAt freq := by
    intro freq hat
    obtain ⟨use, huse, -⟩ := h.mem_keysAt.mp hat
    rw [hkey] at huse
    cases huse
  refine ⟨h.wellFormed.insertNew hnew _, h.capacity_eq, ?_, fun key' => ?_, fun key' => ?_,
    fun freq => ?_, fun key' use' h' => ?_, fun key' use' h' => ?_, fun key' use' h' => ?_⟩
  · exact le_trans (length_insert_le c.keyToValue key _).1 hroom
  · rw [stored?, FrequencyCache.tick, FrequencyCache.record_uses]
    by_cases hk : key' = key
    · rw [hk, if_pos rfl, AList.lookup_insert]
      rfl
    · rw [if_neg hk, AList.lookup_insert_ne hk]
      exact h.stored_eq key'
  · rw [FrequencyCache.tick, FrequencyCache.record_uses]
    by_cases hk : key' = key
    · rw [hk, if_pos rfl, AList.lookup_insert]
      rfl
    · rw [if_neg hk, AList.lookup_insert_ne hk]
      exact h.freq_eq key'
  · simp only [Buckets.keysAt_add _ (hout 1)]
    split
    · exact (h.sorted 1).concat (hout 1) h.since_lt rfl
    · exact (h.sorted freq).record (hout freq) _
  · rcases FrequencyCache.record_uses_eq_some h' with ⟨-, rfl⟩ | ⟨-, h'⟩
    · exact le_refl 1
    · exact h.count_pos key' use' h'
  · rcases FrequencyCache.record_uses_eq_some h' with ⟨-, rfl⟩ | ⟨-, h'⟩
    · exact le_refl 1
    · exact h.count_pos key' use' h'
  · rcases FrequencyCache.record_uses_eq_some h' with ⟨-, rfl⟩ | ⟨-, h'⟩
    · exact Nat.lt_succ_self _
    · exact Nat.lt_succ_of_lt (h.since_lt key' use' h')

/-! ## Making room -/

/-- The oldest key of a bucket goes as any other key does. -/
theorem popOldest_eq (hc : c.WellFormed) {freq : ℕ} {key : κ} {bucket : List κ}
    (h : c.freqToKeys.lookup freq = some (key :: bucket)) :
    c.popOldest freq key bucket = c.evictKey key := by
  have hat : key ∈ c.freqToKeys.keysAt freq := by
    rw [Buckets.keysAt_of_lookup h]
    exact List.mem_cons_self
  have hfreq := (hc.mem_keysAt key freq).mp hat
  simp only [popOldest, evictKey, hfreq, h, List.erase_cons_head]

/-- **The bucket an eviction opens is the one of the least count in use**,
stale hint or not. -/
theorem Refines.evictLfu_eq (h : Refines c a) (hsize : c.size ≠ 0) :
    ∃ freq key bucket, c.freqToKeys.lookup freq = some (key :: bucket) ∧
      (∀ key' use, a.uses key' = some use → freq ≤ use.count) ∧
      c.evictLfu = .ok (({ c with minFreq := freq } : LFUCache κ V).evictKey key) := by
  unfold evictLfu
  split
  · next key bucket hbucket =>
    exact ⟨c.minFreq, key, bucket, hbucket, h.minFreq_le,
      by rw [popOldest_eq h.wellFormed hbucket]⟩
  · split
    · next hempty =>
      exact absurd (size_eq_zero h.wellFormed (List.min?_eq_none_iff.mp hempty)) hsize
    · next freq hfreq =>
      obtain ⟨hmem, hleast⟩ := List.min?_eq_some_iff.mp hfreq
      obtain ⟨bucket, hbucket⟩ := Option.isSome_iff_exists.mp (AList.lookup_isSome.mpr hmem)
      rcases bucket with _ | ⟨key, bucket⟩
      · exact absurd rfl (h.wellFormed.buckets.nonempty freq [] hbucket)
      · refine ⟨freq, key, bucket, hbucket, fun key' use huse => hleast _ ?_, ?_⟩
        · have hat : key' ∈ c.freqToKeys.keysAt use.count := h.mem_keysAt.mpr ⟨use, huse, rfl⟩
          have hlookup := Buckets.lookup_of_mem_keysAt hat
          rw [← AList.mem_keys, ← AList.lookup_isSome, hlookup]
          rfl
        · simp only [hbucket]
          rw [popOldest_eq (h.wellFormed.withMinFreq freq) hbucket]

/-- **An eviction takes the key that reached the least count earliest.** -/
theorem Refines.evictLfu (h : Refines c a) (hsize : c.size ≠ 0) :
    ∃ c' key, c.evictLfu = .ok c' ∧ a.Least key ∧ c'.keyToValue = c.keyToValue.erase key ∧
      c'.capacity = c.capacity ∧ c'.ttlSeconds = c.ttlSeconds ∧ Refines c' a.evict := by
  obtain ⟨freq, key, bucket, hbucket, hmin, heq⟩ := h.evictLfu_eq hsize
  have hkeysAt := Buckets.keysAt_of_lookup hbucket
  obtain ⟨use, huse, hcount⟩ := h.mem_keysAt.mp (hkeysAt ▸ List.mem_cons_self : key ∈ _)
  have hleast : a.Least key := by
    refine ⟨use, huse, fun key' use' hk huse' => ?_⟩
    rcases Nat.lt_or_eq_of_le (hmin key' use' huse') with hlt | heq'
    · exact .inl (hcount ▸ hlt)
    · -- Both are in the bucket, this one at its head.
      have hat : key' ∈ c.freqToKeys.keysAt freq := h.mem_keysAt.mpr ⟨use', huse', heq'.symm⟩
      have hsorted := h.sorted freq
      rw [hkeysAt] at hat hsorted
      have htail := (List.mem_cons.mp hat).resolve_left hk
      exact .inr ⟨hcount.trans heq',
        (List.pairwise_cons.mp hsorted).1 key' htail use use' huse huse'⟩
  have hmoved : Refines { c with minFreq := freq } a :=
    { h with wellFormed := h.wellFormed.withMinFreq freq, minFreq_le := hmin }
  refine ⟨_, key, heq, hleast, rfl, rfl, rfl, ?_⟩
  rw [FrequencyCache.evict_of_least hleast]
  exact hmoved.evictKey key

/-! ## One operation -/

/-- The same, with the two parameters of the cache, which no operation changes. -/
structure RefinesFor (capacity : ℕ) (ttlSeconds : ℤ) (c : LFUCache κ V)
    (a : FrequencyCache κ V ℚ) : Prop where
  refines : Refines c a
  capacity_eq : c.capacity = capacity
  ttlSeconds_eq : c.ttlSeconds = ttlSeconds

variable {capacity : ℕ} {ttlSeconds : ℤ}

theorem RefinesFor.get (h : RefinesFor capacity ttlSeconds c a) (now : ℚ) (key : κ) :
    ∃ c', c.get now key = .ok ((a.get now key).1, c') ∧
      RefinesFor capacity ttlSeconds c' (a.get now key).2.tick := by
  have hstored := h.refines.stored_eq key
  rw [stored?] at hstored
  rw [LFUCache.get, FrequencyCache.get, hstored]
  rcases huse : a.uses key with _ | use
  · exact ⟨c, rfl, h.refines.tick, h.capacity_eq, h.ttlSeconds_eq⟩
  · simp only [Option.map_some, isExpired, decide_eq_true_eq]
    by_cases hexp : use.expireAt ≤ now
    · rw [if_pos hexp, if_pos hexp]
      exact ⟨c.evictKey key, rfl, (h.refines.evictKey key).tick, h.capacity_eq, h.ttlSeconds_eq⟩
    · rw [if_neg hexp, if_neg hexp, h.refines.incrementFreq huse]
      exact ⟨_, rfl, h.refines.movedUp huse, h.capacity_eq, h.ttlSeconds_eq⟩

theorem RefinesFor.exists_ (h : RefinesFor capacity ttlSeconds c a) (now : ℚ) (key : κ) :
    (c.exists_ now key).1 = (a.holds now key).1 ∧
      RefinesFor capacity ttlSeconds (c.exists_ now key).2 (a.holds now key).2.tick := by
  have hstored := h.refines.stored_eq key
  rw [stored?] at hstored
  rw [LFUCache.exists_, FrequencyCache.holds, hstored]
  rcases huse : a.uses key with _ | use
  · exact ⟨rfl, h.refines.tick, h.capacity_eq, h.ttlSeconds_eq⟩
  · simp only [Option.map_some, isExpired, decide_eq_true_eq]
    by_cases hexp : use.expireAt ≤ now
    · rw [if_pos hexp, if_pos hexp]
      exact ⟨rfl, (h.refines.evictKey key).tick, h.capacity_eq, h.ttlSeconds_eq⟩
    · rw [if_neg hexp, if_neg hexp]
      exact ⟨rfl, h.refines.tick, h.capacity_eq, h.ttlSeconds_eq⟩

theorem foldl_evictKey_params (keys : List κ) (c : LFUCache κ V) :
    (keys.foldl LFUCache.evictKey c).capacity = c.capacity ∧
      (keys.foldl LFUCache.evictKey c).ttlSeconds = c.ttlSeconds := by
  induction keys generalizing c with
  | nil => exact ⟨rfl, rfl⟩
  | cons key keys ih => exact ih (c.evictKey key)

theorem RefinesFor.sweepExpiredAt (h : RefinesFor capacity ttlSeconds c a) (clock : κ → ℚ) :
    (c.sweepExpiredAt clock).1 = (a.sweep clock).1 ∧
      RefinesFor capacity ttlSeconds (c.sweepExpiredAt clock).2 (a.sweep clock).2.tick := by
  obtain ⟨hcount, hrefines⟩ := h.refines.sweepExpiredAt clock
  obtain ⟨hcap, httl⟩ := foldl_evictKey_params (c.expiredKeysAt clock) c
  exact ⟨hcount, hrefines.tick, hcap.trans h.capacity_eq, httl.trans h.ttlSeconds_eq⟩

/-- A put of a key that is stored. -/
theorem RefinesFor.put_stored (h : RefinesFor capacity ttlSeconds c a) (hcap : capacity ≠ 0)
    {key : κ} {use : Use V ℚ} (huse : a.uses key = some use) (now : ℚ) (value : V)
    (ttl : Option ℤ) :
    ∃ c', c.put now key value ttl = .ok c' ∧
      RefinesFor capacity ttlSeconds c'
        (a.put key value (now + (ttl.getD ttlSeconds : ℤ))).tick := by
  have hkey : key ∈ c.keyToValue := h.refines.mem_keyToValue.mpr ⟨use, huse⟩
  have hover := h.refines.overwrite huse value (now + (ttl.getD c.ttlSeconds : ℤ))
  have huse' : (a.record key
      { use with value, expireAt := now + (ttl.getD c.ttlSeconds : ℤ) }).uses key =
      some { use with value, expireAt := now + (ttl.getD c.ttlSeconds : ℤ) } := by
    rw [FrequencyCache.record_uses, if_pos rfl]
  have hmoved := hover.movedUp huse'
  rw [LFUCache.put, if_neg (h.capacity_eq ▸ hcap)]
  simp only [if_pos hkey]
  refine ⟨_, hover.incrementFreq huse', ?_, h.capacity_eq, h.ttlSeconds_eq⟩
  rw [FrequencyCache.put, huse, ← h.ttlSeconds_eq]
  simp only [FrequencyCache.record, Function.update_idem] at hmoved ⊢
  exact hmoved

/-- A put of a new key where there is room. -/
theorem RefinesFor.put_room (h : RefinesFor capacity ttlSeconds c a) (hcap : capacity ≠ 0)
    {key : κ} (hnone : a.uses key = none) (hroom : c.size < c.capacity) (now : ℚ) (value : V)
    (ttl : Option ℤ) :
    ∃ c', c.put now key value ttl = .ok c' ∧
      RefinesFor capacity ttlSeconds c'
        (a.put key value (now + (ttl.getD ttlSeconds : ℤ))).tick := by
  have hkey : key ∉ c.keyToValue := by
    rw [h.refines.mem_keyToValue, hnone]
    rintro ⟨use, huse⟩
    cases huse
  have hsize : ¬ a.capacity ≤ a.size := by
    rw [← h.refines.capacity_eq, ← h.refines.size_eq]
    omega
  rw [LFUCache.put, if_neg (h.capacity_eq ▸ hcap)]
  simp only [if_neg hkey, if_neg (not_le.mpr hroom)]
  refine ⟨_, rfl, ?_, h.capacity_eq, h.ttlSeconds_eq⟩
  rw [FrequencyCache.put, hnone, ← h.ttlSeconds_eq]
  simp only [if_neg hsize]
  exact h.refines.insertNew hnone hroom value _

/-- **A put of a new key at capacity** takes the least key out first, and
only that one. -/
theorem RefinesFor.put_full (h : RefinesFor capacity ttlSeconds c a) (hcap : capacity ≠ 0)
    {key : κ} (hnone : a.uses key = none) (hfull : c.capacity ≤ c.size) (now : ℚ) (value : V)
    (ttl : Option ℤ) :
    ∃ c' victim, c.put now key value ttl = .ok c' ∧ a.Least victim ∧
      c'.keyToValue = (c.keyToValue.erase victim).insert key
        (value, now + (ttl.getD ttlSeconds : ℤ)) ∧
      RefinesFor capacity ttlSeconds c'
        (a.put key value (now + (ttl.getD ttlSeconds : ℤ))).tick := by
  have hkey : key ∉ c.keyToValue := by
    rw [h.refines.mem_keyToValue, hnone]
    rintro ⟨use, huse⟩
    cases huse
  have hsize : a.capacity ≤ a.size := by
    rw [← h.refines.capacity_eq, ← h.refines.size_eq]
    exact hfull
  have hpos : c.size ≠ 0 := by
    have := h.capacity_eq
    omega
  obtain ⟨c₁, victim, heq, hleast, hvalue, hcapacity, httl, hrefines⟩ := h.refines.evictLfu hpos
  have hnone₁ : a.evict.uses key = none := by
    rw [FrequencyCache.evict_of_least hleast, FrequencyCache.erase_uses, hnone, ite_self]
  have hvictim : victim ∈ c.keyToValue := by
    obtain ⟨use, huse, -⟩ := hleast
    exact h.refines.mem_keyToValue.mpr ⟨use, huse⟩
  have hroom : c₁.size < c₁.capacity := by
    have hlength : 0 < c.keyToValue.keys.length := Nat.pos_of_ne_zero hpos
    have hle : c.keyToValue.keys.length ≤ c.capacity := h.refines.size_le
    rw [size, hvalue, AList.keys_erase, List.length_erase_of_mem (AList.mem_keys.mp hvictim)]
    omega
  have hmoment : a.evict.moment = a.moment := by
    rw [FrequencyCache.evict_of_least hleast]
    rfl
  rw [LFUCache.put, if_neg (h.capacity_eq ▸ hcap)]
  simp only [if_neg hkey, if_pos hfull, heq]
  refine ⟨_, victim, rfl, hleast, ?_, ?_, hcapacity.trans h.capacity_eq,
    httl.trans h.ttlSeconds_eq⟩
  · simp only [hvalue, h.ttlSeconds_eq]
  · rw [FrequencyCache.put, hnone, ← h.ttlSeconds_eq]
    simp only [if_pos hsize]
    rw [← hmoment]
    exact hrefines.insertNew hnone₁ hroom value _

theorem RefinesFor.put (h : RefinesFor capacity ttlSeconds c a) (hcap : capacity ≠ 0) (now : ℚ)
    (key : κ) (value : V) (ttl : Option ℤ) :
    ∃ c', c.put now key value ttl = .ok c' ∧
      RefinesFor capacity ttlSeconds c'
        (a.put key value (now + (ttl.getD ttlSeconds : ℤ))).tick := by
  rcases huse : a.uses key with _ | use
  · rcases Nat.lt_or_ge c.size c.capacity with hroom | hfull
    · exact h.put_room hcap huse hroom now value ttl
    · obtain ⟨c', -, heq, -, -, hrefines⟩ := h.put_full hcap huse hfull now value ttl
      exact ⟨c', heq, hrefines⟩
  · exact h.put_stored hcap huse now value ttl

/-- **Every operation is answered as the abstract cache answers it.** -/
theorem RefinesFor.perform (hcap : capacity ≠ 0) (op : Op κ V) (c : LFUCache κ V)
    (a : FrequencyCache κ V ℚ) (h : RefinesFor capacity ttlSeconds c a) :
    ∃ c', perform op c = .ok ((intend ttlSeconds op a).1, c') ∧
      RefinesFor capacity ttlSeconds c' (intend ttlSeconds op a).2 := by
  cases op with
  | get now key =>
    obtain ⟨c', heq, hrefines⟩ := h.get now key
    exact ⟨c', by rw [LFUCache.perform, heq]; rfl, hrefines⟩
  | put now key value ttl =>
    obtain ⟨c', heq, hrefines⟩ := h.put hcap now key value ttl
    exact ⟨c', by rw [LFUCache.perform, heq]; rfl, hrefines⟩
  | exists_ now key =>
    obtain ⟨hanswer, hrefines⟩ := h.exists_ now key
    exact ⟨_, by rw [LFUCache.perform, hanswer]; rfl, hrefines⟩
  | clear => exact ⟨_, rfl, h.refines.clear.tick, h.capacity_eq, h.ttlSeconds_eq⟩
  | sweepExpired clock =>
    obtain ⟨hanswer, hrefines⟩ := h.sweepExpiredAt clock
    exact ⟨_, by rw [LFUCache.perform, hanswer]; rfl, hrefines⟩
  | size =>
    exact ⟨c, by rw [LFUCache.perform, h.refines.size_eq]; rfl, h.refines.tick, h.capacity_eq,
      h.ttlSeconds_eq⟩

/-! ## A whole history -/

/-- **The cache refines its history.** Whatever the operations, and whatever
instants they read, none raises and each is answered as the abstract cache
answers it; what is stored is what the abstract cache stores, within the
capacity; and a put of a new key at capacity takes out one key, the one that
reached the least count earliest. -/
theorem history_refined {capacity : ℕ} (hcap : 0 < capacity) (ttlSeconds : ℤ)
    (ops : List (Op κ V)) :
    ∃ c, serve LFUCache.perform ops { capacity, ttlSeconds } =
        .ok ((serveTotal (intend ttlSeconds) ops { capacity }).1, c) ∧
      c.size ≤ capacity ∧
      (∀ key, c.stored? key =
        ((serveTotal (intend ttlSeconds) ops { capacity }).2.uses key).map
          fun use => (use.value, use.expireAt)) ∧
      ∀ now key value ttl, c.stored? key = none → c.size = capacity →
        ∃ c' victim, c.put now key value ttl = .ok c' ∧
          (serveTotal (intend ttlSeconds) ops { capacity }).2.Least victim ∧
          c.stored? victim ≠ none ∧
          ∀ key', c'.stored? key' =
            if key' = key then some (value, now + (ttl.getD ttlSeconds : ℤ))
            else if key' = victim then none else c.stored? key' := by
  have hpos : capacity ≠ 0 := by omega
  obtain ⟨c, hops, hrefines⟩ := serve_refines
    (RefinesFor.perform hpos) ops
    (⟨Refines.new capacity ttlSeconds, rfl, rfl⟩ :
      RefinesFor capacity ttlSeconds ({ capacity, ttlSeconds } : LFUCache κ V) { capacity })
  have hstored := hrefines.refines.stored_eq
  have hsize : c.size ≤ capacity := hrefines.capacity_eq ▸ hrefines.refines.size_le
  refine ⟨c, hops, hsize, hstored, fun now key value ttl hkey hfull => ?_⟩
  have hnone := Option.map_eq_none_iff.mp ((hstored key).symm.trans hkey)
  have hle : c.capacity ≤ c.size := by
    have := hrefines.capacity_eq
    omega
  obtain ⟨c', victim, heq, hleast, hvalue, -⟩ := hrefines.put_full hpos hnone hle now value ttl
  refine ⟨c', victim, heq, hleast, ?_, fun key' => ?_⟩
  · obtain ⟨use, huse, -⟩ := hleast
    rw [hstored, huse]
    exact Option.some_ne_none _
  · rw [stored?, hvalue]
    by_cases hk : key' = key
    · rw [hk, if_pos rfl, AList.lookup_insert]
    · rw [if_neg hk, AList.lookup_insert_ne hk]
      by_cases hv : key' = victim
      · rw [hv, if_pos rfl, AList.lookup_erase]
      · rw [if_neg hv, AList.lookup_erase_ne hv, stored?]

/-- Two keys fill a cache of two, one of them is read, and a third comes. -/
def threeKeys : List (Op ℕ ℕ) :=
  [.put 0 1 10 none, .put 0 2 20 none, .get 1 1, .put 2 3 30 none, .exists_ 3 2, .exists_ 3 1]

theorem history_refined_threeKeys : 0 < 2 ∧
    ∃ c, serve LFUCache.perform threeKeys { capacity := 2, ttlSeconds := 300 } =
        .ok ((serveTotal (intend 300) threeKeys { capacity := 2 }).1, c) ∧ c.size ≤ 2 := by
  refine ⟨by decide, ?_⟩
  obtain ⟨c, hops, hsize, -⟩ := history_refined (by decide : 0 < 2) 300 threeKeys
  exact ⟨c, hops, hsize⟩

/-- The key that was not read goes. -/
example : (serve LFUCache.perform threeKeys { capacity := 2, ttlSeconds := 300 }).map Prod.fst =
    .ok [.done, .done, .found (some 10), .done, .holds false, .holds true] := by
  decide +kernel

end LFUCache

end Congine
