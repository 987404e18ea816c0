import Congine.Infrastructure.LfuCache
import Mathlib.Data.Finset.Card
/-!
# What the schema cache does

`WellFormed` says how the three maps agree. Every operation keeps it and
raises nothing under it, and what an operation does is said in terms of
the entry of each key: `stored?` is the cache as the map it stands for.
-/

namespace Congine

variable {κ V : Type} [DecidableEq κ]

namespace LFUCache

/-- The value and expiry stored under a key. -/
def stored? (c : LFUCache κ V) (key : κ) : Option (V × ℚ) := c.keyToValue.lookup key

/-- What a read at an instant finds. -/
def peek (c : LFUCache κ V) (now : ℚ) (key : κ) : Option V :=
  (c.stored? key).bind fun entry => if isExpired now entry.2 then none else some entry.1

structure WellFormed (c : LFUCache κ V) : Prop where
  buckets : c.freqToKeys.WellFormed
  mem_keysAt : ∀ key freq, key ∈ c.freqToKeys.keysAt freq ↔ c.keyToFreq.lookup key = some freq
  mem_freq : ∀ key, key ∈ c.keyToFreq ↔ key ∈ c.keyToValue

/-- A cache nothing was put into. -/
theorem wellFormed_new (capacity : ℕ) (ttlSeconds : ℤ) :
    WellFormed ({ capacity, ttlSeconds } : LFUCache κ V) where
  buckets :=
    { nonempty := fun freq bucket h => by
        rw [AList.lookup_empty] at h
        cases h
      nodup := fun freq => by simp [Buckets.keysAt] }
  mem_keysAt key freq := by simp [Buckets.keysAt]
  mem_freq key := Iff.rfl

theorem mem_keyToValue_iff {c : LFUCache κ V} {key : κ} :
    key ∈ c.keyToValue ↔ ∃ entry, c.stored? key = some entry := by
  rw [← AList.lookup_isSome, Option.isSome_iff_exists]
  rfl

/-! ## Taking a key out of its bucket -/

/-- **One key leaves its bucket**, and no other key moves. -/
theorem settle_erase {c : LFUCache κ V} (hc : c.WellFormed) {key : κ} {freq : ℕ}
    (hfreq : c.keyToFreq.lookup key = some freq) :
    (c.freqToKeys.settle freq ((c.freqToKeys.keysAt freq).erase key)).WellFormed ∧
      ∀ key' freq',
        key' ∈ (c.freqToKeys.settle freq ((c.freqToKeys.keysAt freq).erase key)).keysAt freq' ↔
          key' ≠ key ∧ c.keyToFreq.lookup key' = some freq' := by
  have hnodup := hc.buckets.nodup freq
  refine ⟨hc.buckets.settle freq (hnodup.erase key), fun key' freq' => ?_⟩
  rw [Buckets.keysAt_settle]
  split
  · next hf => rw [hnodup.mem_erase_iff, hc.mem_keysAt, hf]
  · next hf =>
    rw [hc.mem_keysAt]
    refine ⟨fun h => ⟨?_, h⟩, And.right⟩
    rintro rfl
    exact hf (Option.some.inj (h.symm.trans hfreq))

/-- The bucket of a key that is stored. -/
theorem lookup_bucket {c : LFUCache κ V} (hc : c.WellFormed) {key : κ} {freq : ℕ}
    (hfreq : c.keyToFreq.lookup key = some freq) :
    key ∈ c.freqToKeys.keysAt freq ∧
      c.freqToKeys.lookup freq = some (c.freqToKeys.keysAt freq) := by
  have hmem := (hc.mem_keysAt key freq).mpr hfreq
  exact ⟨hmem, Buckets.lookup_of_mem_keysAt hmem⟩

/-- A cache whose three maps all dropped one key. -/
theorem WellFormed.drop {c c' : LFUCache κ V} (hc : c.WellFormed) {key : κ} {freq : ℕ}
    (hfreq : c.keyToFreq.lookup key = some freq)
    (hbuckets : c'.freqToKeys =
      c.freqToKeys.settle freq ((c.freqToKeys.keysAt freq).erase key))
    (hkeyToFreq : c'.keyToFreq = c.keyToFreq.erase key)
    (hkeyToValue : c'.keyToValue = c.keyToValue.erase key) : c'.WellFormed := by
  obtain ⟨hwf, hmem⟩ := settle_erase hc hfreq
  refine ⟨hbuckets ▸ hwf, fun key' freq' => ?_, fun key' => ?_⟩
  · rw [hbuckets, hmem, hkeyToFreq]
    by_cases hk : key' = key
    · subst hk
      simp
    · rw [AList.lookup_erase_ne hk, and_iff_right hk]
  · rw [hkeyToFreq, hkeyToValue, AList.mem_erase, AList.mem_erase, hc.mem_freq]

/-- **Evicting a key** keeps the maps in agreement. -/
theorem evictKey_wellFormed {c : LFUCache κ V} (hc : c.WellFormed) (key : κ) :
    (c.evictKey key).WellFormed := by
  cases hfreq : c.keyToFreq.lookup key with
  | none =>
    have hbuckets : (c.evictKey key).freqToKeys = c.freqToKeys := by simp [evictKey, hfreq]
    refine ⟨hbuckets ▸ hc.buckets, fun key' freq' => ?_, fun key' => ?_⟩
    · rw [hbuckets, hc.mem_keysAt]
      by_cases hk : key' = key
      · subst hk
        simp [evictKey, hfreq]
      · rw [evictKey, AList.lookup_erase_ne hk]
    · simp only [evictKey, AList.mem_erase, hc.mem_freq]
  | some freq =>
    refine hc.drop hfreq ?_ rfl rfl
    simp only [evictKey, hfreq, (lookup_bucket hc hfreq).2]

@[simp] theorem evictKey_keyToValue (c : LFUCache κ V) (key : κ) :
    (c.evictKey key).keyToValue = c.keyToValue.erase key := rfl

/-! ## Moving a key up -/

/-- The cache a key moves up in. -/
def movedUp (c : LFUCache κ V) (key : κ) (freq : ℕ) : LFUCache κ V :=
  { c with
    freqToKeys := (c.freqToKeys.settle freq ((c.freqToKeys.keysAt freq).erase key)).add
      (freq + 1) key
    minFreq := if ((c.freqToKeys.keysAt freq).erase key).isEmpty ∧ c.minFreq = freq
      then freq + 1 else c.minFreq
    keyToFreq := c.keyToFreq.insert key (freq + 1) }

/-- None of the three lookups misses. -/
theorem incrementFreq_eq {c : LFUCache κ V} (hc : c.WellFormed) {key : κ} {freq : ℕ}
    (hfreq : c.keyToFreq.lookup key = some freq) :
    c.incrementFreq key = .ok (c.movedUp key freq) := by
  obtain ⟨hmem, hbucket⟩ := lookup_bucket hc hfreq
  simp only [incrementFreq, hfreq, hbucket, if_pos hmem, movedUp]

/-- The bucket a key moves to has not got it. -/
theorem notMem_keysAt_settle {c : LFUCache κ V} (hc : c.WellFormed) {key : κ} {freq : ℕ}
    (hfreq : c.keyToFreq.lookup key = some freq) (freq' : ℕ) :
    key ∉ (c.freqToKeys.settle freq ((c.freqToKeys.keysAt freq).erase key)).keysAt freq' :=
  fun h => (((settle_erase hc hfreq).2 key freq').mp h).1 rfl

theorem movedUp_wellFormed {c : LFUCache κ V} (hc : c.WellFormed) {key : κ} {freq : ℕ}
    (hfreq : c.keyToFreq.lookup key = some freq) : (c.movedUp key freq).WellFormed := by
  obtain ⟨hwf, hmoved⟩ := settle_erase hc hfreq
  have hout := notMem_keysAt_settle hc hfreq (freq + 1)
  refine ⟨hwf.add hout, fun key' freq' => ?_, fun key' => ?_⟩
  · simp only [movedUp, Buckets.keysAt_add _ hout]
    by_cases hk : key' = key
    · subst hk
      rw [AList.lookup_insert, Option.some.injEq]
      split
      · next hf => simp [hf]
      · next hf =>
        rw [hmoved]
        exact ⟨fun h => absurd rfl h.1, fun h => absurd h.symm hf⟩
    · rw [AList.lookup_insert_ne hk]
      split
      · next hf => simp [hmoved, hk, hf]
      · rw [hmoved, and_iff_right hk]
  · have hkey : key ∈ c.keyToFreq := AList.lookup_isSome.mp (by rw [hfreq]; rfl)
    rw [movedUp, AList.mem_insert, hc.mem_freq]
    exact ⟨fun h => h.elim (fun hk => hk ▸ (hc.mem_freq key).mp hkey) id, .inr⟩

/-- **A stored key moves up** without a raise, and no entry changes. -/
theorem incrementFreq_spec {c : LFUCache κ V} (hc : c.WellFormed) {key : κ}
    (hkey : key ∈ c.keyToValue) :
    ∃ c', c.incrementFreq key = .ok c' ∧ c'.WellFormed ∧ c'.keyToValue = c.keyToValue ∧
      c'.capacity = c.capacity := by
  obtain ⟨freq, hfreq⟩ := Option.isSome_iff_exists.mp
    (AList.lookup_isSome.mpr ((hc.mem_freq key).mpr hkey))
  exact ⟨_, incrementFreq_eq hc hfreq, movedUp_wellFormed hc hfreq, rfl, rfl⟩

/-! ## Evicting the least frequent -/

theorem popOldest_wellFormed {c : LFUCache κ V} (hc : c.WellFormed) {freq : ℕ} {key : κ}
    {bucket : List κ} (h : c.freqToKeys.lookup freq = some (key :: bucket)) :
    (c.popOldest freq key bucket).WellFormed := by
  have hkeysAt := Buckets.keysAt_of_lookup h
  have hfreq : c.keyToFreq.lookup key = some freq :=
    (hc.mem_keysAt key freq).mp (by simp [hkeysAt])
  refine hc.drop hfreq ?_ rfl rfl
  rw [hkeysAt, List.erase_cons_head]
  rfl

/-- Nothing but the hint changes when it is settled. -/
theorem WellFormed.withMinFreq {c : LFUCache κ V} (hc : c.WellFormed) (freq : ℕ) :
    ({ c with minFreq := freq } : LFUCache κ V).WellFormed :=
  ⟨hc.buckets, hc.mem_keysAt, hc.mem_freq⟩

/-- What a bucket holds is stored. -/
theorem mem_keyToValue_of_bucket {c : LFUCache κ V} (hc : c.WellFormed) {freq : ℕ} {key : κ}
    {bucket : List κ} (h : c.freqToKeys.lookup freq = some bucket) (hkey : key ∈ bucket) :
    key ∈ c.keyToValue := by
  have hat : key ∈ c.freqToKeys.keysAt freq := by rwa [Buckets.keysAt_of_lookup h]
  rw [← hc.mem_freq, ← AList.lookup_isSome, (hc.mem_keysAt key freq).mp hat]
  rfl

/-- Without a bucket nothing is stored. -/
theorem size_eq_zero {c : LFUCache κ V} (hc : c.WellFormed) (h : c.freqToKeys.keys = []) :
    c.size = 0 := by
  refine List.length_eq_zero_iff.mpr (List.eq_nil_iff_forall_not_mem.mpr fun key hkey => ?_)
  rw [← AList.mem_keys, ← hc.mem_freq, ← AList.lookup_isSome] at hkey
  obtain ⟨freq, hfreq⟩ := Option.isSome_iff_exists.mp hkey
  have hmem : freq ∈ c.freqToKeys := by
    rw [← AList.lookup_isSome, Buckets.lookup_of_mem_keysAt ((hc.mem_keysAt key freq).mpr hfreq)]
    rfl
  rw [AList.mem_keys, h] at hmem
  cases hmem

/-- **An eviction drops one of the keys stored**, and raises nothing. -/
theorem evictLfu_spec {c : LFUCache κ V} (hc : c.WellFormed) :
    ∃ c', c.evictLfu = .ok c' ∧ c'.WellFormed ∧ c'.capacity = c.capacity ∧
      (c.size = 0 ∧ c'.keyToValue = c.keyToValue ∨
        ∃ key ∈ c.keyToValue, c'.keyToValue = c.keyToValue.erase key) := by
  unfold evictLfu
  split
  · next key bucket hbucket =>
    exact ⟨_, rfl, popOldest_wellFormed hc hbucket, rfl,
      .inr ⟨key, mem_keyToValue_of_bucket hc hbucket List.mem_cons_self, rfl⟩⟩
  · split
    · next hnone =>
      exact ⟨c, rfl, hc, rfl, .inl ⟨size_eq_zero hc (List.min?_eq_none_iff.mp hnone), rfl⟩⟩
    -- The hint was stale; the least frequency in use has a bucket.
    · next freq hfreq =>
      have hmem : freq ∈ c.freqToKeys := List.min?_mem hfreq
      obtain ⟨bucket, hbucket⟩ := Option.isSome_iff_exists.mp (AList.lookup_isSome.mpr hmem)
      rcases bucket with _ | ⟨key, bucket⟩
      · exact absurd rfl (hc.buckets.nonempty freq [] hbucket)
      · simp only [hbucket]
        exact ⟨_, rfl, popOldest_wellFormed (hc.withMinFreq freq) hbucket, rfl,
          .inr ⟨key, mem_keyToValue_of_bucket hc hbucket List.mem_cons_self, rfl⟩⟩

/-! ## Reads and writes -/

/-- What a read or a sweep leaves: every entry that has not expired, and
of the others some. -/
structure Aged (c c' : LFUCache κ V) (now : ℚ) : Prop where
  wellFormed : c'.WellFormed
  capacity_eq : c'.capacity = c.capacity
  entry_kept : ∀ key, c'.stored? key = c.stored? key ∨
    c'.stored? key = none ∧ ∃ entry, c.stored? key = some entry ∧ entry.2 ≤ now

/-- Nothing is stored that was not before. -/
theorem Aged.entry_of {c c' : LFUCache κ V} {now : ℚ} (h : Aged c c' now) {key : κ}
    {entry : V × ℚ} (hentry : c'.stored? key = some entry) : c.stored? key = some entry := by
  rcases h.entry_kept key with hkept | ⟨hgone, -⟩
  · rw [← hkept, hentry]
  · rw [hgone] at hentry
    cases hentry

/-- **A read answers from the entry**, and leaves every live one. -/
theorem get_spec {c : LFUCache κ V} (hc : c.WellFormed) (now : ℚ) (key : κ) :
    ∃ c', c.get now key = .ok (c.peek now key, c') ∧ Aged c c' now := by
  unfold get peek stored?
  cases hentry : c.keyToValue.lookup key with
  | none => exact ⟨c, rfl, hc, rfl, fun key => .inl rfl⟩
  | some entry =>
    obtain ⟨value, expireAt⟩ := entry
    by_cases hexp : isExpired now expireAt = true
    · refine ⟨c.evictKey key, by simp [hexp], evictKey_wellFormed hc key, rfl, fun key' => ?_⟩
      by_cases hk : key' = key
      · subst hk
        exact .inr ⟨AList.lookup_erase _ _, (value, expireAt), hentry,
          by simpa [isExpired] using hexp⟩
      · exact .inl (AList.lookup_erase_ne hk)
    · obtain ⟨c', heq, hwf, hvalue, hcap⟩ :=
        incrementFreq_spec hc (mem_keyToValue_iff.mpr ⟨_, hentry⟩)
      exact ⟨c', by simp [hexp, heq, Except.map], hwf, hcap,
        fun key' => .inl (by rw [stored?, hvalue, stored?])⟩

/-- A cache that gained a key of frequency one. -/
theorem WellFormed.insertNew {c : LFUCache κ V} (hc : c.WellFormed) {key : κ}
    (hkey : key ∉ c.keyToValue) (entry : V × ℚ) :
    ({ c with
        keyToValue := c.keyToValue.insert key entry
        keyToFreq := c.keyToFreq.insert key 1
        freqToKeys := c.freqToKeys.add 1 key
        minFreq := 1 } : LFUCache κ V).WellFormed := by
  have hnofreq : c.keyToFreq.lookup key = none :=
    AList.lookup_eq_none.mpr (fun h => hkey ((hc.mem_freq key).mp h))
  have hout : ∀ freq, key ∉ c.freqToKeys.keysAt freq := by
    intro freq h
    rw [hc.mem_keysAt, hnofreq] at h
    cases h
  refine ⟨hc.buckets.add (hout 1), fun key' freq' => ?_, fun key' => ?_⟩
  · simp only [Buckets.keysAt_add _ (hout 1)]
    by_cases hk : key' = key
    · subst hk
      rw [AList.lookup_insert, Option.some.injEq]
      split
      · next hf => simp [hf]
      · next hf => exact ⟨fun h => absurd h (hout freq'), fun h => absurd h.symm hf⟩
    · rw [AList.lookup_insert_ne hk, ← hc.mem_keysAt]
      split
      · next hf => simp [hk, hf]
      · rfl
  · rw [AList.mem_insert, AList.mem_insert, hc.mem_freq]

/-- A stored key whose value is written anew. -/
theorem WellFormed.overwrite {c : LFUCache κ V} (hc : c.WellFormed) {key : κ}
    (hkey : key ∈ c.keyToValue) (entry : V × ℚ) :
    ({ c with keyToValue := c.keyToValue.insert key entry } : LFUCache κ V).WellFormed := by
  refine ⟨hc.buckets, hc.mem_keysAt, fun key' => ?_⟩
  rw [AList.mem_insert, hc.mem_freq]
  exact ⟨.inr, fun h => h.elim (fun hk => hk ▸ hkey) id⟩

/-- The cache a new key goes into: a full one has lost a key. -/
theorem evictFull_spec {c : LFUCache κ V} (hc : c.WellFormed) (hcap : c.capacity ≠ 0) :
    ∃ c₁, (if c.capacity ≤ c.size then c.evictLfu else .ok c) = .ok c₁ ∧
      c₁.WellFormed ∧ c₁.capacity = c.capacity ∧
      (c.size < c.capacity ∧ c₁.keyToValue = c.keyToValue ∨
        ¬ c.size < c.capacity ∧
          ∃ victim ∈ c.keyToValue, c₁.keyToValue = c.keyToValue.erase victim) := by
  split
  · next hfull =>
    obtain ⟨c₁, heq, hwf, hcapacity, ⟨hzero, -⟩ | hvictim⟩ := evictLfu_spec hc
    · omega
    · exact ⟨c₁, heq, hwf, hcapacity, .inr ⟨not_lt.mpr hfull, hvictim⟩⟩
  · next hroom => exact ⟨c, rfl, hc, rfl, .inl ⟨not_le.mp hroom, rfl⟩⟩

/-- What a write leaves: its own entry, and of the others some; all of them
where the key was stored already or there is room. -/
structure Written (c c' : LFUCache κ V) (key : κ) (entry : V × ℚ) : Prop where
  wellFormed : c'.WellFormed
  capacity_eq : c'.capacity = c.capacity
  entry_self : c'.stored? key = some entry
  entry_other : ∀ key', key' ≠ key →
    c'.stored? key' = c.stored? key' ∨ c'.stored? key' = none
  entry_kept : key ∈ c.keyToValue ∨ c.size < c.capacity →
    ∀ key', key' ≠ key → c'.stored? key' = c.stored? key'

/-- **A write stores its entry** and raises nothing. -/
theorem put_spec {c : LFUCache κ V} (hc : c.WellFormed) (hcap : c.capacity ≠ 0) (now : ℚ)
    (key : κ) (value : V) (ttlSeconds : Option ℤ) :
    ∃ c', c.put now key value ttlSeconds = .ok c' ∧
      Written c c' key (value, now + (ttlSeconds.getD c.ttlSeconds : ℤ)) := by
  unfold put
  rw [if_neg hcap]
  set entry : V × ℚ := (value, now + (ttlSeconds.getD c.ttlSeconds : ℤ)) with hentry
  simp only
  split
  · next hkey =>
    obtain ⟨c', heq, hwf', hvalue, hcapacity⟩ := incrementFreq_spec (hc.overwrite hkey entry)
      ((AList.mem_insert c.keyToValue).mpr (.inl rfl))
    have hother : ∀ key', key' ≠ key → c'.stored? key' = c.stored? key' := by
      intro key' hk
      rw [stored?, hvalue, AList.lookup_insert_ne hk, stored?]
    exact ⟨c', heq, hwf', hcapacity, by rw [stored?, hvalue, AList.lookup_insert],
      fun key' hk => .inl (hother key' hk), fun _ => hother⟩
  · next hkey =>
    obtain ⟨c₁, heq, hwf, hcapacity, hvalue⟩ := evictFull_spec hc hcap
    have hkey₁ : key ∉ c₁.keyToValue := by
      rcases hvalue with ⟨-, h⟩ | ⟨-, victim, -, h⟩
      · rwa [h]
      · rw [h, AList.mem_erase]
        exact fun hmem => hkey hmem.2
    rw [heq]
    refine ⟨_, rfl, hwf.insertNew hkey₁ entry, hcapacity, AList.lookup_insert _, fun key' hk => ?_,
      fun hkept key' hk => ?_⟩
    · simp only [stored?, AList.lookup_insert_ne hk]
      rcases hvalue with ⟨-, h⟩ | ⟨-, victim, -, h⟩
      · exact .inl (by rw [h])
      · rw [h]
        by_cases hv : key' = victim
        · exact .inr (by rw [hv, AList.lookup_erase])
        · exact .inl (AList.lookup_erase_ne hv)
    · simp only [stored?, AList.lookup_insert_ne hk]
      rcases hvalue with ⟨-, h⟩ | ⟨hfull, -⟩
      · rw [h]
      · exact absurd (hkept.resolve_left hkey) hfull

/-- A write of a stored key leaves the size, one of a new key adds at most one. -/
theorem length_insert_le (entries : AList fun _ : κ => V × ℚ) (key : κ) (entry : V × ℚ) :
    (entries.insert key entry).keys.length ≤ entries.keys.length + 1 ∧
      (key ∈ entries → (entries.insert key entry).keys.length = entries.keys.length) := by
  rw [AList.keys_insert, List.length_cons]
  refine ⟨Nat.succ_le_succ (List.length_erase_le ..), fun hkey => ?_⟩
  rw [AList.mem_keys] at hkey
  have hpos : 0 < entries.keys.length := List.length_pos_of_mem hkey
  rw [List.length_erase_of_mem hkey]
  omega

/-- **A write keeps the cache within its capacity.** -/
theorem put_size_le {c c' : LFUCache κ V} (hc : c.WellFormed) (hsize : c.size ≤ c.capacity)
    {now : ℚ} {key : κ} {value : V} {ttlSeconds : Option ℤ}
    (h : c.put now key value ttlSeconds = .ok c') : c'.size ≤ c'.capacity := by
  by_cases hcap : c.capacity = 0
  · rw [put, if_pos hcap] at h
    rwa [← Except.ok.inj h]
  · rw [put, if_neg hcap] at h
    simp only at h
    split at h
    · next hkey =>
      obtain ⟨c₁, heq, -, hvalue, hcapacity⟩ := incrementFreq_spec (hc.overwrite hkey _)
        ((AList.mem_insert c.keyToValue).mpr (.inl rfl))
      obtain rfl := Except.ok.inj (heq.symm.trans h)
      rw [size, hvalue, hcapacity, (length_insert_le c.keyToValue key _).2 hkey]
      exact hsize
    · obtain ⟨c₁, heq, -, hcapacity, hvalue⟩ := evictFull_spec hc hcap
      have hroom : c₁.size < c.capacity := by
        rcases hvalue with ⟨hlt, h⟩ | ⟨-, victim, hmem, h⟩
        · rwa [size, h]
        · have hpos : 0 < c.keyToValue.keys.length :=
            List.length_pos_of_mem (AList.mem_keys.mp hmem)
          rw [size, h, AList.keys_erase, List.length_erase_of_mem (AList.mem_keys.mp hmem)]
          unfold size at hsize
          omega
      rw [heq] at h
      rw [← Except.ok.inj h]
      refine le_trans (length_insert_le c₁.keyToValue key _).1 ?_
      rw [hcapacity]
      exact hroom

/-- A key swept out had expired. -/
theorem mem_expiredKeys {c : LFUCache κ V} {now : ℚ} {key : κ} :
    key ∈ c.expiredKeys now ↔ ∃ entry, c.stored? key = some entry ∧ entry.2 ≤ now := by
  simp only [expiredKeys, List.mem_filter, ← AList.mem_keys, mem_keyToValue_iff, stored?,
    Option.any_eq_true, isExpired, decide_eq_true_eq]
  exact ⟨fun h => h.2, fun ⟨entry, hentry, hle⟩ => ⟨⟨entry, hentry⟩, entry, hentry, hle⟩⟩

theorem foldl_evictKey_spec (keys : List κ) {c : LFUCache κ V} (hc : c.WellFormed) :
    (keys.foldl evictKey c).WellFormed ∧ (keys.foldl evictKey c).capacity = c.capacity ∧
      ∀ key, (keys.foldl evictKey c).stored? key = if key ∈ keys then none else c.stored? key := by
  induction keys generalizing c with
  | nil => exact ⟨hc, rfl, fun key => by simp⟩
  | cons k keys ih =>
    obtain ⟨hwf, hcap, hentry⟩ := ih (evictKey_wellFormed hc k)
    refine ⟨hwf, hcap, fun key => ?_⟩
    rw [List.foldl_cons, hentry]
    by_cases hk : key = k
    · subst hk
      simp [stored?]
    · simp [hk, stored?, AList.lookup_erase_ne hk]

/-- **A sweep drops the expired entries** and no other. -/
theorem sweepExpired_spec {c : LFUCache κ V} (hc : c.WellFormed) (now : ℚ) :
    Aged c (c.sweepExpired now).2 now := by
  obtain ⟨hwf, hcap, hentry⟩ := foldl_evictKey_spec (c.expiredKeys now) hc
  refine ⟨hwf, hcap, fun key => ?_⟩
  rw [sweepExpired, hentry]
  split
  · next hmem => exact .inr ⟨rfl, mem_expiredKeys.mp hmem⟩
  · exact .inl rfl

/-! ## Within capacity -/

/-- The cache, and whatever more of a set of keys is put into it, fits. -/
structure Fits (c : LFUCache κ V) (S : Finset κ) : Prop where
  wellFormed : c.WellFormed
  stored_mem : ∀ key ∈ c.keyToValue, key ∈ S
  card_le : S.card ≤ c.capacity

/-- **A key of the set is stored, or there is room for it.** -/
theorem Fits.room {c : LFUCache κ V} {S : Finset κ} (h : c.Fits S) {key : κ} (hkey : key ∈ S) :
    key ∈ c.keyToValue ∨ c.size < c.capacity := by
  by_cases hstored : key ∈ c.keyToValue
  · exact .inl hstored
  · right
    have hsub : c.keyToValue.keys.toFinset ⊆ S := by
      intro k hk
      exact h.stored_mem k (List.mem_toFinset.mp hk)
    have hlt : c.keyToValue.keys.toFinset ⊂ S :=
      ⟨hsub, fun hsup => hstored (List.mem_toFinset.mp (hsup hkey))⟩
    have hcard := Finset.card_lt_card hlt
    rw [List.toFinset_card_of_nodup c.keyToValue.keys_nodup] at hcard
    exact lt_of_lt_of_le hcard h.card_le

/-- Writing a key of the set keeps the cache within it. -/
theorem Written.fits {c c' : LFUCache κ V} {S : Finset κ} {key : κ} {entry : V × ℚ}
    (hw : Written c c' key entry) (h : c.Fits S) (hkey : key ∈ S) : c'.Fits S where
  wellFormed := hw.wellFormed
  stored_mem k hk := by
    by_cases hne : k = key
    · exact hne ▸ hkey
    · obtain ⟨entry', hentry'⟩ := mem_keyToValue_iff.mp hk
      rw [hw.entry_kept (h.room hkey) k hne] at hentry'
      exact h.stored_mem k (mem_keyToValue_iff.mpr ⟨entry', hentry'⟩)
  card_le := hw.capacity_eq ▸ h.card_le

/-! ## No capacity -/

/-- A cache that holds nothing and never will. -/
structure Void (c : LFUCache κ V) : Prop where
  wellFormed : c.WellFormed
  capacity_eq : c.capacity = 0
  entry_eq : ∀ key, c.stored? key = none

theorem Void.of_entries {c c' : LFUCache κ V} (h : Void c) (hwf : c'.WellFormed)
    (hcapacity : c'.capacity = c.capacity)
    (hentries : ∀ key entry, c'.stored? key = some entry → c.stored? key = some entry) :
    Void c' where
  wellFormed := hwf
  capacity_eq := hcapacity.trans h.capacity_eq
  entry_eq key := by
    cases hentry : c'.stored? key with
    | none => rfl
    | some entry =>
      have := hentries key entry hentry
      rw [h.entry_eq] at this
      cases this

/-! ## Reachable caches -/

/-- The caches that operations lead to, from a new one on. -/
inductive Reachable : LFUCache κ V → Prop
  | new (capacity : ℕ) (ttlSeconds : ℤ) : Reachable { capacity, ttlSeconds }
  | get {c c' : LFUCache κ V} {now : ℚ} {key : κ} {found : Option V} (hc : Reachable c)
      (h : c.get now key = .ok (found, c')) : Reachable c'
  | put {c c' : LFUCache κ V} {now : ℚ} {key : κ} {value : V} {ttlSeconds : Option ℤ}
      (hc : Reachable c) (h : c.put now key value ttlSeconds = .ok c') : Reachable c'
  | clear {c : LFUCache κ V} (hc : Reachable c) : Reachable c.clear
  | exists_ {c : LFUCache κ V} {now : ℚ} {key : κ} (hc : Reachable c) :
      Reachable (c.exists_ now key).2
  | sweepExpired {c : LFUCache κ V} {now : ℚ} (hc : Reachable c) :
      Reachable (c.sweepExpired now).2

/-- **The maps of a reachable cache agree.** -/
theorem Reachable.wellFormed {c : LFUCache κ V} (h : Reachable c) : c.WellFormed := by
  induction h with
  | new capacity ttlSeconds => exact wellFormed_new capacity ttlSeconds
  | @get c c' now key found hc h ih =>
    obtain ⟨c₁, heq, haged⟩ := get_spec ih now key
    rw [heq, Except.ok.injEq, Prod.mk.injEq] at h
    exact h.2 ▸ haged.wellFormed
  | @put c c' now key value ttlSeconds hc h ih =>
    by_cases hcap : c.capacity = 0
    · rw [LFUCache.put, if_pos hcap, Except.ok.injEq] at h
      exact h ▸ ih
    · obtain ⟨c₁, heq, hwritten⟩ := put_spec ih hcap now key value ttlSeconds
      rw [heq, Except.ok.injEq] at h
      exact h ▸ hwritten.wellFormed
  | @clear c hc ih => exact wellFormed_new c.capacity c.ttlSeconds
  | @exists_ c now key hc ih =>
    unfold LFUCache.exists_
    split
    · exact ih
    · split
      · exact evictKey_wellFormed ih key
      · exact ih
  | sweepExpired hc ih => exact (sweepExpired_spec ih _).wellFormed

end LFUCache

end Congine
