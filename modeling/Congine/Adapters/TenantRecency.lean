import Congine.Adapters.TenantRegistry
import Congine.Common.Recency
/-!
# The registry over its lookups

Along calls that return, the registered keys are those looked up last, as
many as there is room for, in the order of their latest lookups; the key
that goes when there is no room is the one looked up longest ago. A call
that raises has made room all the same where it got as far as the
construction, so a construction that fails costs another tenant its
entry.
-/

namespace Congine

namespace TenantRegistry

variable {registry registry' : TenantRegistry} {tenantId projectId key : String}
  {source : ConfigSource} {failure : Option Exc} {container : ℕ}

/-- The registered keys, from the one looked up last. -/
def keys (registry : TenantRegistry) : List String := registry.tenantRegistry.keys

theorem nodup_keys (registry : TenantRegistry) : registry.keys.Nodup :=
  registry.tenantRegistry.keys_nodup

theorem length_keys (registry : TenantRegistry) :
    registry.keys.length = registry.tenantRegistry.entries.length := by
  simp [keys, AList.keys, List.keys]

theorem mem_keys_iff : key ∈ registry.keys ↔ (registry.tenantRegistry.lookup key).isSome := by
  rw [AList.lookup_isSome]
  exact AList.mem_keys

/-! ## Making room -/

/-- The key that goes when room is made. -/
def evicted (registry : TenantRegistry) : Option String :=
  if maxTenants ≤ registry.keys.length then registry.keys.getLast? else none

/-- **Making room removes the key at the end**, and counts it. -/
theorem makeRoom_eq (registry : TenantRegistry) :
    registry.makeRoom = match registry.evicted with
      | some oldest =>
          { registry with
            tenantRegistry := registry.tenantRegistry.erase oldest
            evictedTotal := registry.evictedTotal + 1 }
      | none => registry := by
  have hlast : registry.keys.getLast? = registry.tenantRegistry.entries.getLast?.map (·.1) := by
    rw [keys, AList.keys, List.keys, List.getLast?_map]
  unfold makeRoom evicted
  rw [length_keys, hlast]
  split_ifs
  · rcases registry.tenantRegistry.entries.getLast? with _ | oldest
    · rfl
    · rfl
  · rfl

theorem erase_getLast?_of_nodup {α : Type*} [DecidableEq α] {held : List α} {oldest : α}
    (h : held.Nodup) (hlast : held.getLast? = some oldest) :
    held.erase oldest = held.dropLast := by
  obtain ⟨rest, rfl⟩ := List.getLast?_eq_some_iff.mp hlast
  have hnot : oldest ∉ rest := by
    intro hmem
    exact (List.nodup_append.mp h).2.2 oldest hmem oldest (List.mem_singleton_self _) rfl
  rw [List.erase_append_right _ hnot, List.dropLast_concat]
  simp

theorem keys_makeRoom (h : registry.keys.length ≤ maxTenants) :
    registry.makeRoom.keys = registry.keys.take (maxTenants - 1) := by
  rw [makeRoom_eq, evicted]
  by_cases hfull : maxTenants ≤ registry.keys.length
  · have hne : registry.keys ≠ [] := by
      intro hnil
      rw [hnil] at hfull
      exact absurd hfull (by decide)
    have hlast := List.getLast?_eq_some_getLast hne
    rw [if_pos hfull, hlast]
    show (registry.tenantRegistry.erase _).keys = _
    rw [AList.keys_erase]
    rw [show registry.tenantRegistry.keys = registry.keys from rfl,
      erase_getLast?_of_nodup registry.nodup_keys hlast, List.dropLast_eq_take]
    congr 1
    omega
  · rw [if_neg hfull]
    show registry.keys = _
    rw [List.take_of_length_le (by omega)]

/-! ## What a call ends in -/

/-- No live container is registered under the key. -/
def Misses (registry : TenantRegistry) (key : String) : Prop :=
  ∀ existing, registry.tenantRegistry.lookup key = some existing →
    registry.isLive existing = false

/-- The registry without a key. -/
def dropKey (registry : TenantRegistry) (key : String) : TenantRegistry :=
  { registry with tenantRegistry := registry.tenantRegistry.erase key }

theorem dropKey_of_not_mem (h : key ∉ registry.keys) : registry.dropKey key = registry := by
  have herase : registry.tenantRegistry.erase key = registry.tenantRegistry :=
    AList.ext (List.kerase_of_notMem_keys h)
  rw [dropKey, herase]

theorem keys_dropKey : (registry.dropKey key).keys = registry.keys.erase key :=
  AList.keys_erase key registry.tenantRegistry

/-- A miss constructs, on the registry without the key. -/
theorem forTenant_of_misses (h : registry.Misses (registryKey tenantId projectId)) :
    registry.forTenant tenantId projectId source failure =
      (registry.dropKey (registryKey tenantId projectId)).construct tenantId projectId source
        failure := by
  rcases hlookup : registry.tenantRegistry.lookup (registryKey tenantId projectId) with
    _ | existing
  · have hnot : registryKey tenantId projectId ∉ registry.keys := by
      rw [mem_keys_iff, hlookup]
      decide
    rw [dropKey_of_not_mem hnot]
    simp only [forTenant, hlookup]
  · simp only [forTenant, hlookup, h existing hlookup, Bool.false_eq_true, if_false]
    rfl

/-- A hit returns what is registered. -/
theorem forTenant_of_hit
    (hlookup : registry.tenantRegistry.lookup (registryKey tenantId projectId) = some container)
    (hlive : registry.isLive container = true) :
    registry.forTenant tenantId projectId source failure =
      (.ok container,
        { registry with
          tenantRegistry :=
            registry.tenantRegistry.insert (registryKey tenantId projectId) container }) := by
  simp only [forTenant, hlookup, hlive, if_true]

theorem misses_or_hit (registry : TenantRegistry) (key : String) :
    registry.Misses key ∨ ∃ container, registry.tenantRegistry.lookup key = some container ∧
      registry.isLive container = true := by
  by_cases h : registry.Misses key
  · exact Or.inl h
  · rw [Misses] at h
    push Not at h
    obtain ⟨container, hlookup, hlive⟩ := h
    exact Or.inr ⟨container, hlookup, by simpa using hlive⟩

/-- A construction that returns has put the new container in front. -/
theorem construct_ok (h : registry.construct tenantId projectId source failure =
    (.ok container, registry')) :
    registry'.tenantRegistry =
        registry.makeRoom.tenantRegistry.insert (registryKey tenantId projectId) container ∧
      registry'.evictedTotal = registry.makeRoom.evictedTotal := by
  unfold construct at h
  rcases hconfig : resolveConfig tenantId projectId source with exc | config
  · simp [hconfig] at h
  · rcases failure with _ | exc
    · simp only [hconfig] at h
      obtain ⟨hok, rfl⟩ := Prod.mk.inj h
      obtain rfl := Except.ok.inj hok
      exact ⟨rfl, rfl⟩
    · simp [hconfig] at h

/-! ## Lookups that return -/

/-- What a lookup does that returns, where `history` is what has been looked
up. -/
structure LooksUp (history : List String) (registry registry' : TenantRegistry) (key : String)
    (container : ℕ) : Prop where
  /-- What is registered and open is returned. -/
  same : ∀ existing, registry.tenantRegistry.lookup key = some existing →
    registry.isLive existing = true → container = existing
  registered : registry'.tenantRegistry.lookup key = some container
  /-- Without a new key in a full registry no other entry changes. -/
  keeps : (key ∈ registry.keys ∨ registry.keys.length < maxTenants) →
    registry'.evictedTotal = registry.evictedTotal ∧ ∀ other ≠ key,
      registry'.tenantRegistry.lookup other = registry.tenantRegistry.lookup other
  /-- With one, the key looked up longest ago goes, alone, and is counted. -/
  evicts : key ∉ registry.keys → maxTenants ≤ registry.keys.length → ∃ oldest ∈ registry.keys,
    (∀ other ∈ registry.keys, other ≠ oldest → age history other < age history oldest) ∧
    registry'.evictedTotal = registry.evictedTotal + 1 ∧
    registry'.tenantRegistry.lookup oldest = none ∧ ∀ other ≠ key, other ≠ oldest →
      registry'.tenantRegistry.lookup other = registry.tenantRegistry.lookup other

/-- The registered keys after a history of lookups. -/
def Follows (history : List String) (registry : TenantRegistry) : Prop :=
  registry.keys = (recency history).take maxTenants

variable {history : List String}

theorem Follows.length_le (h : Follows history registry) : registry.keys.length ≤ maxTenants := by
  rw [h, List.length_take]
  omega

theorem Follows.pairwise_age (h : Follows history registry) :
    registry.keys.Pairwise fun a b => age history a < age history b := by
  rw [h]
  exact (recency_pairwise_age history).sublist (List.take_sublist _ _)

/-- The last key is the one looked up longest ago. -/
theorem Follows.age_lt_last (h : Follows history registry) {oldest : String}
    (hlast : registry.keys.getLast? = some oldest) :
    ∀ other ∈ registry.keys, other ≠ oldest → age history other < age history oldest := by
  intro other hother hne
  obtain ⟨rest, hrest⟩ := List.getLast?_eq_some_iff.mp hlast
  have hpairwise := h.pairwise_age
  rw [hrest] at hpairwise hother
  rcases List.mem_append.mp hother with hmem | hmem
  · exact (List.pairwise_append.mp hpairwise).2.2 other hmem oldest (List.mem_singleton_self _)
  · exact absurd (List.mem_singleton.mp hmem) hne

/-- **A lookup that returns brings its key to the front.** -/
theorem keys_of_ok (hlength : registry.keys.length ≤ maxTenants)
    (h : registry.forTenant tenantId projectId source failure = (.ok container, registry')) :
    registry'.keys = refresh maxTenants (registryKey tenantId projectId) registry.keys := by
  rcases registry.misses_or_hit (registryKey tenantId projectId) with
    hmiss | ⟨existing, hget, hlive⟩
  · rw [forTenant_of_misses hmiss] at h
    obtain ⟨hkeys, -⟩ := construct_ok h
    have hlength' :
        (registry.dropKey (registryKey tenantId projectId)).keys.length ≤ maxTenants := by
      rw [keys_dropKey]
      exact (List.length_erase_le).trans hlength
    have hnot : registryKey tenantId projectId ∉
        (registry.dropKey (registryKey tenantId projectId)).makeRoom.keys := by
      rw [keys_makeRoom hlength', keys_dropKey]
      intro hmem
      exact (registry.nodup_keys.mem_erase_iff.mp (List.mem_of_mem_take hmem)).1 rfl
    rw [keys, hkeys, AList.keys_insert]
    show _ :: (registry.dropKey _).makeRoom.keys.erase _ = _
    rw [List.erase_of_not_mem hnot, keys_makeRoom hlength', keys_dropKey, refresh]
  · rw [forTenant_of_hit hget hlive] at h
    obtain ⟨-, rfl⟩ := Prod.mk.inj h
    have hmem : registryKey tenantId projectId ∈ registry.keys := by
      rw [mem_keys_iff, hget]
      rfl
    rw [refresh_of_mem hlength hmem]
    exact AList.keys_insert ..

theorem evicted_eq_none (h : registry.keys.length < maxTenants) : registry.evicted = none :=
  if_neg (by omega)

/-- **A lookup that returns does what an LRU registry does.** -/
theorem looksUp_of_ok (hfollows : Follows history registry)
    (h : registry.forTenant tenantId projectId source failure = (.ok container, registry')) :
    LooksUp history registry registry' (registryKey tenantId projectId) container := by
  rcases registry.misses_or_hit (registryKey tenantId projectId) with
    hmiss | ⟨existing, hget, hlive⟩
  · rw [forTenant_of_misses hmiss] at h
    obtain ⟨hentries, hcount⟩ := construct_ok h
    refine ⟨fun existing hget hlive => ?_, ?_, fun hroom => ?_, fun hnot hfull => ?_⟩
    · rw [hmiss existing hget] at hlive
      cases hlive
    · rw [hentries, AList.lookup_insert]
    · have hbelow : (registry.dropKey (registryKey tenantId projectId)).keys.length <
          maxTenants := by
        rw [keys_dropKey]
        rcases hroom with hmem | hlt
        · have hpos := List.length_pos_of_mem hmem
          have hlength := hfollows.length_le
          rw [List.length_erase_of_mem hmem]
          omega
        · exact lt_of_le_of_lt List.length_erase_le hlt
      rw [makeRoom_eq, evicted_eq_none hbelow] at hentries hcount
      refine ⟨hcount, fun other hne => ?_⟩
      rw [hentries, AList.lookup_insert_ne hne]
      exact AList.lookup_erase_ne hne
    · rw [dropKey_of_not_mem hnot] at hentries hcount
      have hne : registry.keys ≠ [] := by
        intro hnil
        rw [hnil] at hfull
        exact absurd hfull (by decide)
      have hlast := List.getLast?_eq_some_getLast hne
      have holdest := List.getLast_mem hne
      rw [makeRoom_eq, evicted, if_pos hfull, hlast] at hentries hcount
      have hkey : registry.keys.getLast hne ≠ registryKey tenantId projectId :=
        fun heq => hnot (heq ▸ holdest)
      refine ⟨_, holdest, hfollows.age_lt_last hlast, hcount, ?_, fun other hother hne' => ?_⟩
      · rw [hentries, AList.lookup_insert_ne hkey, AList.lookup_erase]
      · rw [hentries, AList.lookup_insert_ne hother, AList.lookup_erase_ne hne']
  · rw [forTenant_of_hit hget hlive] at h
    obtain ⟨hok, rfl⟩ := Prod.mk.inj h
    obtain rfl := Except.ok.inj hok
    have hmem : registryKey tenantId projectId ∈ registry.keys := by
      rw [mem_keys_iff, hget]
      rfl
    exact ⟨fun existing' hget' _ => Option.some.inj (hget.symm.trans hget'),
      AList.lookup_insert _, fun _ => ⟨rfl, fun other hne => AList.lookup_insert_ne hne⟩,
      fun hnot => absurd hmem hnot⟩

/-! ## Lookups that raise -/

/-- The entries of open containers. -/
def openEntries (registry : TenantRegistry) : List (Σ _ : String, ℕ) :=
  registry.tenantRegistry.entries.filter fun entry => registry.isLive entry.2

/-- What was registered and open still is, in its order, and nothing has
been evicted. -/
structure KeepsOpen (registry registry' : TenantRegistry) : Prop where
  entries : registry.openEntries.Sublist registry'.tenantRegistry.entries
  evictedTotal : registry'.evictedTotal = registry.evictedTotal

theorem keepsOpen_dropKey (h : registry.Misses key) :
    registry.KeepsOpen (registry.dropKey key) := by
  refine ⟨?_, rfl⟩
  have hclosed : ∀ entry ∈ registry.tenantRegistry.entries, entry.1 = key →
      registry.isLive entry.2 = false := by
    rintro ⟨other, container⟩ hmem rfl
    exact h container (AList.mem_lookup_iff.mpr hmem)
  show List.Sublist (List.filter _ _) (List.kerase key registry.tenantRegistry.entries)
  rw [List.kerase]
  generalize registry.tenantRegistry.entries = entries at hclosed
  -- The entry that goes is not among the open ones.
  induction entries with
  | nil => exact List.Sublist.slnil
  | cons entry entries ih =>
    obtain ⟨hentry, hrest⟩ := List.forall_mem_cons.mp hclosed
    by_cases hkey : key = entry.1
    · rw [List.filter_cons_of_neg (by simp [hentry hkey.symm]),
        List.eraseP_cons_of_pos (by simpa using hkey)]
      exact List.filter_sublist
    · rw [List.eraseP_cons_of_neg (by simpa using hkey)]
      rcases hlive : registry.isLive entry.2 with _ | _
      · rw [List.filter_cons_of_neg (by simp [hlive])]
        exact (ih hrest).cons _
      · rw [List.filter_cons_of_pos (by simp [hlive])]
        exact (ih hrest).cons_cons _

/-- The call gets as far as a construction that fails, in a registry that
is full without the key. -/
def FailsWhenFull (registry : TenantRegistry) (tenantId projectId : String)
    (source : ConfigSource) (failure : Option Exc) : Prop :=
  registry.Misses (registryKey tenantId projectId) ∧
    (∃ config, resolveConfig tenantId projectId source = .ok config) ∧
    failure.isSome = true ∧
    maxTenants ≤ (registry.keys.erase (registryKey tenantId projectId)).length

/-- A construction that fails in a full registry has evicted. -/
theorem not_keepsOpen_of_failsWhenFull
    (h : registry.FailsWhenFull tenantId projectId source failure) :
    ∃ exc registry',
      registry.forTenant tenantId projectId source failure = (.error exc, registry') ∧
        registry'.evictedTotal = registry.evictedTotal + 1 := by
  obtain ⟨hmiss, ⟨config, hconfig⟩, hfailure, hfull⟩ := h
  obtain ⟨exc, rfl⟩ := Option.isSome_iff_exists.mp hfailure
  have hne : (registry.dropKey (registryKey tenantId projectId)).keys ≠ [] := by
    intro hnil
    rw [← keys_dropKey, hnil] at hfull
    exact absurd hfull (by decide)
  refine ⟨exc, (registry.dropKey (registryKey tenantId projectId)).makeRoom, ?_, ?_⟩
  · rw [forTenant_of_misses hmiss, construct, hconfig]
  · rw [makeRoom_eq, evicted, keys_dropKey, if_pos hfull, ← keys_dropKey,
      List.getLast?_eq_some_getLast hne]
    rfl

/-- **When a call that raises leaves the registry as it was**: unless it
constructs, the construction fails, and the registry is full. -/
theorem forTenant_atomic_iff (registry : TenantRegistry) (tenantId projectId : String)
    (source : ConfigSource) (failure : Option Exc) :
    (∀ exc registry',
      registry.forTenant tenantId projectId source failure = (.error exc, registry') →
        registry.KeepsOpen registry') ↔
      ¬ registry.FailsWhenFull tenantId projectId source failure := by
  constructor
  · intro hatomic hfails
    obtain ⟨exc, registry', hcall, hcount⟩ := not_keepsOpen_of_failsWhenFull hfails
    have hkept := (hatomic exc registry' hcall).evictedTotal
    omega
  · intro hnot exc registry' hcall
    rcases registry.misses_or_hit (registryKey tenantId projectId) with
      hmiss | ⟨container, hget, hlive⟩
    · have hdropped := keepsOpen_dropKey hmiss
      rw [forTenant_of_misses hmiss, construct] at hcall
      rcases hconfig : resolveConfig tenantId projectId source with exc' | config
      · simp only [hconfig] at hcall
        obtain ⟨-, rfl⟩ := Prod.mk.inj hcall
        exact hdropped
      · rcases failure with _ | exc'
        · simp [hconfig] at hcall
        · simp only [hconfig] at hcall
          obtain ⟨-, rfl⟩ := Prod.mk.inj hcall
          have hroom : (registry.dropKey (registryKey tenantId projectId)).keys.length <
              maxTenants := by
            by_contra hfull
            rw [keys_dropKey] at hfull
            exact hnot ⟨hmiss, ⟨config, hconfig⟩, rfl, by omega⟩
          rw [makeRoom_eq, evicted_eq_none hroom]
          exact hdropped
    · rw [forTenant_of_hit hget hlive] at hcall
      cases hcall

end TenantRegistry

/-! ## Runs -/

namespace TenantCall

open TenantRegistry

/-- A lookup that returns, or a close. -/
def Succeeds : TenantCall → TenantRegistry → Prop
  | forTenant tenantId projectId source failure, registry =>
      ∃ container, (registry.forTenant tenantId projectId source failure).1 = .ok container
  | close _, _ => True
  | clear, _ => False

/-- The key a call looks up. -/
def lookedUp : TenantCall → Option String
  | forTenant tenantId projectId _ _ => some (registryKey tenantId projectId)
  | close _ | clear => none

theorem follows_empty : Follows [] empty := rfl

theorem follows_step {history : List String} {registry : TenantRegistry}
    (h : Follows history registry) (call : TenantCall) (hcall : call.Succeeds registry) :
    Follows (history ++ call.lookedUp.toList) (call.step registry) := by
  cases call with
  | forTenant tenantId projectId source failure =>
    obtain ⟨container, hok⟩ := hcall
    have hkeys := keys_of_ok h.length_le (Prod.ext hok rfl :
      registry.forTenant tenantId projectId source failure = (.ok container, _))
    rw [Follows, lookedUp, Option.toList_some, ← refresh_take_recency (by decide), ← h]
    exact hkeys
  | close container => simpa [lookedUp, step, TenantRegistry.close, Follows, keys] using h
  | clear => exact hcall.elim

theorem follows_run {history : List String} {registry : TenantRegistry}
    (h : Follows history registry) {calls : List TenantCall}
    (hcalls : Along step Succeeds calls registry) :
    Follows (history ++ calls.filterMap lookedUp) (run step calls registry) := by
  induction calls generalizing history registry with
  | nil => simpa using h
  | cons call calls ih =>
    obtain ⟨hcall, hrest⟩ := hcalls
    have hrun := ih (follows_step h call hcall) hrest
    have hhistory : (call :: calls).filterMap lookedUp =
        call.lookedUp.toList ++ calls.filterMap lookedUp := by
      rw [List.filterMap_cons]
      cases call.lookedUp
      · rfl
      · rfl
    rw [hhistory, ← List.append_assoc]
    exact hrun

/-- **The registry is an LRU over lookups.** After any closes and lookups
that return, the registered keys are the ones looked up last, as many as
there is room for, in the order of their latest lookups; and every lookup
that returns does what an LRU registry does. -/
theorem tenantRegistry_lru {calls : List TenantCall} (h : Along step Succeeds calls empty) :
    let registry := run step calls empty
    let history := calls.filterMap lookedUp
    registry.keys.length ≤ maxTenants ∧
      registry.keys = (recency history).take maxTenants ∧
      registry.keys.Pairwise (fun a b => age history a < age history b) ∧
      ∀ tenantId projectId source failure container registry',
        registry.forTenant tenantId projectId source failure = (.ok container, registry') →
          LooksUp history registry registry' (registryKey tenantId projectId) container := by
  have hfollows := follows_run follows_empty h
  exact ⟨hfollows.length_le, hfollows, hfollows.pairwise_age,
    fun _ _ _ _ _ _ hok => looksUp_of_ok hfollows hok⟩

/-- A tenant closed and looked up again comes back ahead of the other. -/
theorem tenantRegistry_lru_reopened :
    (run step [asks "a" "p", asks "b" "p", close 0, asks "a" "p"] empty).keys =
      ["a|p", "b|p"] := by
  have hcalls : Along step Succeeds [asks "a" "p", asks "b" "p", close 0, asks "a" "p"] empty :=
    ⟨⟨0, by decide +kernel⟩, ⟨1, by decide +kernel⟩, trivial, ⟨2, by decide +kernel⟩, trivial⟩
  rw [(tenantRegistry_lru hcalls).2.1]
  decide +kernel

theorem asks_succeeds (tenantId projectId : String) (registry : TenantRegistry) :
    (asks tenantId projectId).Succeeds registry := by
  rcases registry.misses_or_hit (registryKey tenantId projectId) with
    hmiss | ⟨container, hget, hlive⟩
  · refine ⟨(registry.dropKey (registryKey tenantId projectId)).makeRoom.containers.length, ?_⟩
    rw [forTenant_of_misses hmiss]
    simp [construct, resolveConfig]
  · exact ⟨container, by rw [forTenant_of_hit hget hlive]⟩

/-- As many tenants as there is room for, each looked up once. -/
def fillingCalls : List TenantCall :=
  (List.range maxTenants).map fun n => asks (String.ofList (List.replicate n 't')) "p"

theorem lookedUp_filling : fillingCalls.filterMap lookedUp = (List.range maxTenants).map fun n =>
    registryKey (String.ofList (List.replicate n 't')) "p" := by
  rw [fillingCalls, List.filterMap_map, ← List.filterMap_eq_map]
  rfl

theorem follows_filling :
    Follows (fillingCalls.filterMap lookedUp) (run step fillingCalls empty) := by
  refine follows_run follows_empty (along_of_forall (fun call hmem registry => ?_) empty)
  obtain ⟨n, -, rfl⟩ := List.mem_map.mp hmem
  exact asks_succeeds _ _ registry

theorem length_filling (n : ℕ) :
    (registryKey (String.ofList (List.replicate n 't')) "p").toList.length = n + 2 := by
  simp [registryKey, Text.join]

theorem length_keys_filling : (run step fillingCalls empty).keys.length = maxTenants := by
  have hnodup : (fillingCalls.filterMap lookedUp).Nodup := by
    rw [lookedUp_filling]
    refine List.nodup_range.map fun n m heq => ?_
    have hn := length_filling n
    have hm := length_filling m
    rw [show registryKey (String.ofList (List.replicate n 't')) "p" = _ from heq] at hn
    omega
  rw [follows_filling, List.length_take, recency, hnodup.dedup, List.length_reverse,
    lookedUp_filling, List.length_map, List.length_range, min_self]

theorem new_not_mem_filling :
    registryKey "new" "p" ∉ (run step fillingCalls empty).keys := by
  rw [follows_filling]
  intro hmem
  have hmem := mem_recency.mp (List.mem_of_mem_take hmem)
  rw [lookedUp_filling] at hmem
  obtain ⟨n, -, heq⟩ := List.mem_map.mp hmem
  have hn := length_filling n
  rw [heq, show (registryKey "new" "p").toList.length = 5 by decide] at hn
  obtain rfl : n = 3 := by omega
  exact absurd heq (by decide)

/-- **A tenant whose container cannot be constructed costs another its
entry.** -/
theorem forTenant_evicts_and_raises :
    let registry := run step fillingCalls empty
    let source := ConfigSource.supplied
      { baseUrl := "https://cp.test", projectId := some "p", tenantId := some "new" }
    ∃ exc registry',
      registry.forTenant "new" "p" source (some .valueError) = (.error exc, registry') ∧
        ¬ registry.KeepsOpen registry' := by
  intro registry source
  have hnew : registryKey "new" "p" ∉ registry.keys := new_not_mem_filling
  have hfails : registry.FailsWhenFull "new" "p" source (some .valueError) := by
    refine ⟨fun existing hget => ?_, ⟨_, rfl⟩, rfl, ?_⟩
    · rw [mem_keys_iff, hget] at hnew
      exact absurd rfl hnew
    · rw [List.erase_of_not_mem hnew]
      exact length_keys_filling.ge
  obtain ⟨exc, registry', hcall, hcount⟩ := not_keepsOpen_of_failsWhenFull hfails
  refine ⟨exc, registry', hcall, fun hkeeps => ?_⟩
  have hkept := hkeeps.evictedTotal
  omega

end TenantCall

end Congine
