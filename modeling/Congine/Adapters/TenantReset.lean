import Congine.Adapters.TenantRecency
import Congine.Common.Calls
import Mathlib.Data.Finset.Card
/-!
# The tenants while a reset is under way

`reset_default` takes the tenants out of the registry under the lock and
closes them once it has let the lock go: the default container first, then
one tenant after the other. Lookups and holders that close a container come
in between, any number of resets at once, and a close that raises ends its
reset where it stands. Through all of it an open container is registered,
or is one a reset has taken, or is one whose eviction is counted; and no
lookup returns what a reset has taken.

The default container is closed here by a statement that may raise; what
`get_default` makes of it is `DefaultContainer`.
-/

namespace Congine

/-- Where a call of `reset_default` stands that has taken the default
container. -/
inductive ResetCall where
  /-- About to take the tenants, under `_tenant_lock`. -/
  | clearing
  | closingDefault (tenants : List ℕ)
  /-- The tenants it has closed, and those it has still to close. -/
  | closing (closed tenants : List ℕ)
  | ended (closed left : List ℕ) (raised : Option Exc)

namespace ResetCall

def closed : ResetCall → List ℕ
  | closing closed _ | ended closed _ _ => closed
  | clearing | closingDefault _ => []

/-- The containers the call has taken and not closed. -/
def pending : ResetCall → List ℕ
  | closingDefault tenants | closing _ tenants | ended _ tenants _ => tenants
  | clearing => []

def taken (call : ResetCall) : List ℕ := call.closed ++ call.pending

end ResetCall

/-- `list(_tenant_registry.values())`. -/
def TenantRegistry.tenants (registry : TenantRegistry) : List ℕ :=
  (registry.tenantRegistry.entries.map (·.2)).reverse

structure TenantState where
  registry : TenantRegistry := .empty
  resets : List ResetCall := []

inductive TenantEvent where
  | forTenant (tenantId projectId : String) (source : ConfigSource) (failure : Option Exc)
  /-- A holder closes a container. -/
  | close (container : ℕ)
  | resetDefault
  /-- A reset goes on; `raised` is what a teardown it comes to raises. -/
  | advance (reset : ℕ) (raised : Option Exc)

namespace TenantState

def setReset (s : TenantState) (i : ℕ) (call : ResetCall) : TenantState :=
  { s with resets := s.resets.set i call }

def advance (i : ℕ) (raised : Option Exc) (s : TenantState) : TenantState :=
  match s.resets[i]? with
  | some .clearing =>
    { registry := s.registry.clear
      resets := s.resets.set i (.closingDefault s.registry.tenants) }
  | some (.closingDefault tenants) =>
    match raised with
    | some exc => s.setReset i (.ended [] tenants (some exc))
    | none => s.setReset i (.closing [] tenants)
  | some (.closing closed []) => s.setReset i (.ended closed [] none)
  | some (.closing closed (c :: tenants)) =>
    let call : ResetCall :=
      -- Only a close that finds the container open tears it down.
      match if s.registry.isLive c then raised else none with
      | some exc => .ended (closed ++ [c]) tenants (some exc)
      | none => .closing (closed ++ [c]) tenants
    { registry := s.registry.close c, resets := s.resets.set i call }
  | _ => s

def step : TenantEvent → TenantState → TenantState
  | .forTenant tenantId projectId source failure, s =>
    { s with registry := (s.registry.forTenant tenantId projectId source failure).2 }
  | .close c, s => { s with registry := s.registry.close c }
  | .resetDefault, s => { s with resets := s.resets ++ [.clearing] }
  | .advance i raised, s => s.advance i raised

/-- The open containers that neither the registry nor a reset has. -/
def lost (s : TenantState) : Finset ℕ :=
  (Finset.range s.registry.containers.length).filter fun c =>
    s.registry.isLive c = true ∧ c ∉ s.registry.tenants ∧ ∀ reset ∈ s.resets, c ∉ reset.pending

def openContainers (s : TenantState) : Finset ℕ :=
  (Finset.range s.registry.containers.length).filter fun c => s.registry.isLive c = true

end TenantState

/-! ## What a lookup does to the containers -/

namespace TenantRegistry

variable {registry registry' : TenantRegistry} {tenantId projectId key : String}
  {source : ConfigSource} {failure : Option Exc} {c c' : ℕ}

theorem mem_tenants_iff :
    c ∈ registry.tenants ↔ ∃ key, registry.tenantRegistry.lookup key = some c := by
  simp only [tenants, List.mem_reverse, List.mem_map]
  constructor
  · rintro ⟨⟨key, c⟩, hmem, rfl⟩
    exact ⟨key, AList.mem_lookup_iff.mpr hmem⟩
  · rintro ⟨key, hlookup⟩
    exact ⟨⟨key, c⟩, AList.mem_lookup_iff.mp hlookup, rfl⟩

theorem length_tenants : registry.tenants.length = registry.keys.length := by
  rw [tenants, List.length_reverse, List.length_map, length_keys]

theorem lt_of_isLive (h : registry.isLive c = true) : c < registry.containers.length := by
  by_contra hge
  rw [isLive, List.getElem?_eq_none (not_lt.mp hge)] at h
  cases h

theorem isLive_close_iff :
    (registry.close c).isLive c' = true ↔ registry.isLive c' = true ∧ c' ≠ c := by
  unfold isLive close
  rw [List.getElem?_modify]
  rcases hc : registry.containers[c']? with _ | container
  · simp
  · rcases eq_or_ne c c' with rfl | hne
    · simp
    · simp [hne, hne.symm]

theorem length_close : (registry.close c).containers.length = registry.containers.length :=
  List.length_modify _ _ _

theorem Keyed.lt (h : registry.Keyed) (hmem : c ∈ registry.tenants) :
    c < registry.containers.length := by
  obtain ⟨key, hlookup⟩ := mem_tenants_iff.mp hmem
  obtain ⟨_, _, ⟨_, hc, -⟩, -⟩ := h key c hlookup
  exact (List.getElem?_eq_some_iff.mp hc).1

/-- A container is registered under the one key its names make. -/
theorem Keyed.key_unique (h : registry.Keyed) {key' : String}
    (hlookup : registry.tenantRegistry.lookup key = some c)
    (hlookup' : registry.tenantRegistry.lookup key' = some c) : key = key' := by
  obtain ⟨tenantId, projectId, hnamed, rfl⟩ := h key c hlookup
  obtain ⟨tenantId', projectId', hnamed', rfl⟩ := h key' c hlookup'
  obtain ⟨rfl, rfl⟩ := hnamed.unique hnamed'
  rfl

/-- The open containers that are registered stay registered, but for some
whose eviction is counted. -/
def Forgets (registry registry' : TenantRegistry) : Prop :=
  ∃ evicted : Finset ℕ, registry.evictedTotal + evicted.card ≤ registry'.evictedTotal ∧
    ∀ c ∈ registry.tenants, registry.isLive c = true → c ∈ registry'.tenants ∨ c ∈ evicted

theorem Forgets.trans {registry'' : TenantRegistry} (h : registry.Forgets registry')
    (hcontainers : registry'.containers = registry.containers) (h' : registry'.Forgets registry'') :
    registry.Forgets registry'' := by
  obtain ⟨evicted, hcount, hkept⟩ := h
  obtain ⟨evicted', hcount', hkept'⟩ := h'
  have hunion := Finset.card_union_le evicted evicted'
  refine ⟨evicted ∪ evicted', by omega, fun c hmem hlive => ?_⟩
  rcases hkept c hmem hlive with hstill | hgone
  · rw [isLive, ← hcontainers] at hlive
    exact (hkept' c hstill hlive).imp id (Finset.mem_union_right evicted)
  · exact .inr (Finset.mem_union_left evicted' hgone)

theorem KeepsOpen.forgets (h : registry.KeepsOpen registry') : registry.Forgets registry' := by
  refine ⟨∅, h.evictedTotal.ge, fun c hmem hlive => .inl ?_⟩
  obtain ⟨key, hlookup⟩ := mem_tenants_iff.mp hmem
  have hentry : (⟨key, c⟩ : Σ _ : String, ℕ) ∈ registry.openEntries :=
    List.mem_filter.mpr ⟨AList.mem_lookup_iff.mp hlookup, hlive⟩
  exact mem_tenants_iff.mpr ⟨key, AList.mem_lookup_iff.mpr (h.entries.subset hentry)⟩

theorem forgets_makeRoom (registry : TenantRegistry) : registry.Forgets registry.makeRoom := by
  rw [makeRoom_eq]
  rcases hevicted : registry.evicted with _ | oldest
  · exact ⟨∅, le_rfl, fun c hmem _ => .inl hmem⟩
  · have hmem : oldest ∈ registry.keys := by
      unfold evicted at hevicted
      split_ifs at hevicted
      exact List.mem_of_getLast? hevicted
    obtain ⟨c₀, hlookup₀⟩ := Option.isSome_iff_exists.mp (mem_keys_iff.mp hmem)
    refine ⟨{c₀}, le_rfl, fun c hc _ => ?_⟩
    obtain ⟨key, hlookup⟩ := mem_tenants_iff.mp hc
    rcases eq_or_ne key oldest with rfl | hne
    · exact .inr (Finset.mem_singleton.mpr (Option.some.inj (hlookup.symm.trans hlookup₀)))
    · exact .inl (mem_tenants_iff.mpr ⟨key, (AList.lookup_erase_ne hne).trans hlookup⟩)

/-- What is put under a key is there, beside what was under other keys. -/
theorem forgets_insert (hkey : ∀ existing, registry.tenantRegistry.lookup key = some existing →
    existing = c) (containers : List ServiceContainer) :
    registry.Forgets { registry with
      containers, tenantRegistry := registry.tenantRegistry.insert key c } := by
  refine ⟨∅, le_rfl, fun c' hmem _ => .inl ?_⟩
  obtain ⟨key', hlookup⟩ := mem_tenants_iff.mp hmem
  rcases eq_or_ne key' key with rfl | hne
  · obtain rfl := hkey c' hlookup
    exact mem_tenants_iff.mpr ⟨key', AList.lookup_insert _⟩
  · exact mem_tenants_iff.mpr ⟨key', (AList.lookup_insert_ne hne).trans hlookup⟩

/-- **A lookup forgets no open container** but one it evicts and counts. -/
theorem forgets_forTenant (registry : TenantRegistry) (tenantId projectId : String)
    (source : ConfigSource) (failure : Option Exc) :
    registry.Forgets (registry.forTenant tenantId projectId source failure).2 := by
  rcases registry.misses_or_hit (registryKey tenantId projectId) with hmiss | ⟨c, hget, hlive⟩
  · rw [forTenant_of_misses hmiss]
    have hdropped : registry.Forgets (registry.dropKey (registryKey tenantId projectId)) :=
      (keepsOpen_dropKey hmiss).forgets
    have hroom := hdropped.trans rfl (forgets_makeRoom _)
    have hshrinks := shrinks_makeRoom (registry.dropKey (registryKey tenantId projectId))
    unfold construct
    rcases resolveConfig tenantId projectId source with exc | config
    · exact hdropped
    · rcases failure with _ | exc
      · refine hroom.trans hshrinks.containers_eq (forgets_insert (fun existing hget => ?_) _)
        have hgone := hshrinks.lookup_of _ _ hget
        rw [dropKey, AList.lookup_erase] at hgone
        cases hgone
      · exact hroom
  · rw [forTenant_of_hit hget hlive]
    exact forgets_insert (fun existing h => Option.some.inj (h.symm.trans hget)) _

theorem length_makeRoom_le (registry : TenantRegistry) :
    registry.makeRoom.keys.length ≤ registry.keys.length := by
  rw [makeRoom_eq]
  rcases registry.evicted with _ | oldest
  · exact le_rfl
  · show (registry.dropKey oldest).keys.length ≤ _
    rw [keys_dropKey]
    exact List.length_erase_le

theorem length_forTenant_le (tenantId projectId : String) (source : ConfigSource)
    (failure : Option Exc) (h : registry.keys.length ≤ maxTenants) :
    (registry.forTenant tenantId projectId source failure).2.keys.length ≤ maxTenants := by
  rcases hout : registry.forTenant tenantId projectId source failure with ⟨exc | c, registry'⟩
  · rcases registry.misses_or_hit (registryKey tenantId projectId) with hmiss | ⟨c, hget, hlive⟩
    · have hdropped : (registry.dropKey (registryKey tenantId projectId)).keys.length ≤
          maxTenants := by
        rw [keys_dropKey]
        exact List.length_erase_le.trans h
      rw [forTenant_of_misses hmiss, construct] at hout
      rcases hconfig : resolveConfig tenantId projectId source with exc' | config
      · simp only [hconfig] at hout
        obtain ⟨-, rfl⟩ := Prod.mk.inj hout
        exact hdropped
      · rcases failure with _ | exc'
        · simp [hconfig] at hout
        · simp only [hconfig] at hout
          obtain ⟨-, rfl⟩ := Prod.mk.inj hout
          exact (length_makeRoom_le _).trans hdropped
    · rw [forTenant_of_hit hget hlive] at hout
      cases hout
  · show registry'.keys.length ≤ maxTenants
    rw [keys_of_ok h hout, refresh, List.length_cons, List.length_take]
    have hpos : 0 < maxTenants := by decide
    omega

/-- What a lookup leaves registered was, or is the container it has
constructed; and what it has constructed is registered. -/
structure Registers (registry registry' : TenantRegistry) : Prop where
  tenants : ∀ c ∈ registry'.tenants, c ∈ registry.tenants ∨ c = registry.containers.length
  live : ∀ c, registry'.isLive c = true →
    registry.isLive c = true ∨ c = registry.containers.length ∧ c ∈ registry'.tenants
  closed : ∀ c < registry.containers.length, registry'.isLive c = registry.isLive c
  length_le : registry.containers.length ≤ registry'.containers.length

theorem Shrinks.registers (h : registry.Shrinks registry') : registry.Registers registry' where
  tenants c hmem := by
    obtain ⟨key, hlookup⟩ := mem_tenants_iff.mp hmem
    exact .inl (mem_tenants_iff.mpr ⟨key, h.lookup_of key c hlookup⟩)
  live c hlive := .inl (by rwa [isLive, h.containers_eq] at hlive)
  closed c _ := by rw [isLive, h.containers_eq, isLive]
  length_le := (congrArg List.length h.containers_eq).ge

theorem Ends.registers {out : Except Exc ℕ × TenantRegistry}
    (h : registry.Ends tenantId projectId out) : registry.Registers out.2 := by
  rcases h with ⟨hlookup, -⟩ | h | ⟨-, h, -, -⟩
  · refine ⟨fun c hmem => .inl ?_, fun c hlive => .inl hlive, fun c _ => rfl, le_rfl⟩
    obtain ⟨key, hget⟩ := mem_tenants_iff.mp hmem
    rcases eq_or_ne key (registryKey tenantId projectId) with rfl | hne
    · rw [AList.lookup_insert] at hget
      exact mem_tenants_iff.mpr ⟨_, hlookup.trans hget⟩
    · exact mem_tenants_iff.mpr ⟨key, (AList.lookup_insert_ne hne).symm.trans hget⟩
  · exact h.registers
  · rename_i config registry'
    have hold := h.registers
    have hnew : registry.containers.length ∈
        (registry'.register (registryKey tenantId projectId) config).tenants := by
      rw [← h.containers_eq]
      exact mem_tenants_iff.mpr ⟨_, AList.lookup_insert _⟩
    have hlive : ∀ c < registry.containers.length,
        (registry'.register (registryKey tenantId projectId) config).isLive c =
          registry.isLive c := by
      intro c hlt
      show (registry'.containers ++ _)[c]?.any _ = _
      rw [h.containers_eq, List.getElem?_append_left hlt, isLive]
    refine ⟨fun c hmem => ?_, fun c hopen => ?_, hlive, ?_⟩
    · obtain ⟨key, hget⟩ := mem_tenants_iff.mp hmem
      rcases eq_or_ne key (registryKey tenantId projectId) with rfl | hne
      · rw [TenantRegistry.register, AList.lookup_insert] at hget
        exact .inr (by rw [← Option.some.inj hget, h.containers_eq])
      · rw [TenantRegistry.register, AList.lookup_insert_ne hne] at hget
        exact hold.tenants c (mem_tenants_iff.mpr ⟨key, hget⟩)
    · rcases Nat.lt_or_ge c registry.containers.length with hlt | hge
      · exact .inl ((hlive c hlt).symm.trans hopen)
      · have hbound := lt_of_isLive hopen
        rw [TenantRegistry.register, List.length_append, List.length_singleton,
          h.containers_eq] at hbound
        obtain rfl : c = registry.containers.length := by omega
        exact .inr ⟨rfl, hnew⟩
    · show _ ≤ (registry'.containers ++ _).length
      rw [List.length_append, h.containers_eq]
      omega

end TenantRegistry

namespace TenantState

open TenantRegistry

/-! ## What every step keeps -/

structure Inv (s : TenantState) : Prop where
  keyed : s.registry.Keyed
  bounded : s.registry.keys.length ≤ maxTenants
  /-- What a reset has taken was constructed and does not come back. -/
  taken : ∀ reset ∈ s.resets, ∀ c ∈ reset.taken,
    c < s.registry.containers.length ∧ c ∉ s.registry.tenants
  closed : ∀ reset ∈ s.resets, ∀ c ∈ reset.closed, s.registry.isLive c = false
  complete : ∀ closed left, .ended closed left none ∈ s.resets → left = []
  lost : s.lost.card ≤ s.registry.evictedTotal

theorem inv_init : ({} : TenantState).Inv where
  keyed := keyed_empty
  bounded := by decide
  taken reset h := absurd h List.not_mem_nil
  closed reset h := absurd h List.not_mem_nil
  complete closed left h := absurd h List.not_mem_nil
  lost := le_rfl

section

variable {s s' : TenantState} {i : ℕ} {raised : Option Exc} {c : ℕ}

theorem mem_lost_iff : c ∈ s.lost ↔ s.registry.isLive c = true ∧ c ∉ s.registry.tenants ∧
    ∀ reset ∈ s.resets, c ∉ reset.pending := by
  simp only [lost, Finset.mem_filter, Finset.mem_range, and_iff_right_iff_imp]
  exact fun h => lt_of_isLive h.1

/-- A container that is closed is lost to nobody. -/
theorem lost_close_subset (c : ℕ) :
    ({ s with registry := s.registry.close c } : TenantState).lost ⊆ s.lost := by
  intro c' h
  rw [mem_lost_iff] at h ⊢
  exact ⟨(isLive_close_iff.mp h.1).1, h.2⟩

theorem Inv.close (hs : s.Inv) (c : ℕ) :
    ({ s with registry := s.registry.close c } : TenantState).Inv where
  keyed := hs.keyed.of_lookup (extends_close s.registry c) fun _ _ h => h
  bounded := hs.bounded
  taken reset hmem c' hc' := by
    obtain ⟨hlt, hout⟩ := hs.taken reset hmem c' hc'
    exact ⟨hlt.trans_eq length_close.symm, hout⟩
  closed reset hmem c' hc' := by
    rw [Bool.eq_false_iff]
    intro hlive
    have hclosed := hs.closed reset hmem c' hc'
    rw [(isLive_close_iff.mp hlive).1] at hclosed
    cases hclosed
  complete := hs.complete
  lost := (Finset.card_le_card (lost_close_subset c)).trans hs.lost

theorem Inv.forTenant (hs : s.Inv) (tenantId projectId : String) (source : ConfigSource)
    (failure : Option Exc) :
    (step (.forTenant tenantId projectId source failure) s).Inv := by
  have hends := forTenant_ends s.registry tenantId projectId source failure
  have hforgets := forgets_forTenant s.registry tenantId projectId source failure
  have hkeyed := hends.keyed hs.keyed
  have hbounded := length_forTenant_le tenantId projectId source failure hs.bounded
  have hregisters := hends.registers
  simp only [step]
  generalize (s.registry.forTenant tenantId projectId source failure).2 = registry'
    at hforgets hkeyed hbounded hregisters
  refine ⟨hkeyed, hbounded, fun reset hmem c hc => ?_, fun reset hmem c hc => ?_, hs.complete, ?_⟩
  · obtain ⟨hlt, hout⟩ := hs.taken reset hmem c hc
    refine ⟨hlt.trans_le hregisters.length_le, fun hin => ?_⟩
    rcases hregisters.tenants c hin with hold | rfl
    · exact hout hold
    · exact absurd hlt (lt_irrefl _)
  · have hlt := (hs.taken reset hmem c (List.mem_append_left _ hc)).1
    exact (hregisters.closed c hlt).trans (hs.closed reset hmem c hc)
  · obtain ⟨evicted, hcount, hkept⟩ := hforgets
    have hsubset : ({ s with registry := registry' } : TenantState).lost ⊆ s.lost ∪ evicted := by
      intro c h
      rw [mem_lost_iff] at h
      obtain ⟨hlive, hout, hpending⟩ := h
      rcases hregisters.live c hlive with hold | ⟨-, hin⟩
      · by_cases hmem : c ∈ s.registry.tenants
        · exact Finset.mem_union_right _ ((hkept c hmem hold).resolve_left hout)
        · exact Finset.mem_union_left _ (mem_lost_iff.mpr ⟨hold, hmem, hpending⟩)
      · exact absurd hin hout
    have hcard := (Finset.card_le_card hsubset).trans (Finset.card_union_le _ _)
    have hlost := hs.lost
    show Finset.card _ ≤ registry'.evictedTotal
    omega

/-- **A reset goes on** from what it has taken. -/
theorem Inv.move (hs : s.Inv) {call call' : ResetCall} (hi : s.resets[i]? = some call)
    (htaken : ∀ c ∈ call'.taken, c ∈ call.taken)
    (hclosed : ∀ c ∈ call'.closed, s.registry.isLive c = false)
    (hpending : ∀ c ∈ call.pending, s.registry.isLive c = true → c ∈ call'.pending)
    (hcomplete : ∀ closed left, call' = .ended closed left none → left = []) :
    (s.setReset i call').Inv where
  keyed := hs.keyed
  bounded := hs.bounded
  taken reset hmem c hc := by
    rcases List.mem_or_eq_of_mem_set hmem with hold | rfl
    · exact hs.taken reset hold c hc
    · exact hs.taken call (List.mem_of_getElem? hi) c (htaken c hc)
  closed reset hmem c hc := by
    rcases List.mem_or_eq_of_mem_set hmem with hold | rfl
    · exact hs.closed reset hold c hc
    · exact hclosed c hc
  complete closed left hmem := by
    rcases List.mem_or_eq_of_mem_set hmem with hold | heq
    · exact hs.complete closed left hold
    · exact hcomplete closed left heq.symm
  lost := by
    refine (Finset.card_le_card fun c h => ?_).trans hs.lost
    rw [mem_lost_iff] at h ⊢
    obtain ⟨hlive, hout, hnone⟩ := h
    refine ⟨hlive, hout, fun reset hmem hc => ?_⟩
    by_cases heq : call = reset
    · have hself : call' ∈ s.resets.set i call' :=
        List.mem_of_getElem? (getElem?_moved_self hi)
      exact hnone call' hself (hpending c (heq ▸ hc) hlive)
    · exact hnone reset (mem_moved hi heq hmem) hc

/-- **A reset takes the tenants**: all that are registered. -/
theorem Inv.clear (hs : s.Inv) (hi : s.resets[i]? = some .clearing) :
    ({ registry := s.registry.clear,
       resets := s.resets.set i (.closingDefault s.registry.tenants) } : TenantState).Inv where
  keyed key c h := by cases h
  bounded := Nat.zero_le _
  taken reset hmem c hc := by
    have hout : c ∉ s.registry.clear.tenants := List.not_mem_nil
    rcases List.mem_or_eq_of_mem_set hmem with hold | rfl
    · exact ⟨(hs.taken reset hold c hc).1, hout⟩
    · exact ⟨hs.keyed.lt hc, hout⟩
  closed reset hmem c hc := by
    rcases List.mem_or_eq_of_mem_set hmem with hold | rfl
    · exact hs.closed reset hold c hc
    · cases hc
  complete closed left hmem := by
    rcases List.mem_or_eq_of_mem_set hmem with hold | heq
    · exact hs.complete closed left hold
    · cases heq
  lost := by
    refine (Finset.card_le_card fun c h => ?_).trans hs.lost
    rw [mem_lost_iff] at h ⊢
    obtain ⟨hlive, -, hnone⟩ := h
    refine ⟨hlive, ?_, fun reset hmem hc => ?_⟩
    · exact hnone _ (List.mem_of_getElem? (getElem?_moved_self hi))
    · by_cases heq : ResetCall.clearing = reset
      · rw [← heq] at hc
        cases hc
      · exact hnone reset (mem_moved hi heq hmem) hc

theorem Inv.join (hs : s.Inv) : (step .resetDefault s).Inv := by
  have hold : ∀ reset ∈ s.resets ++ [.clearing], reset ∈ s.resets ∨ reset = .clearing :=
    fun reset hmem => (List.mem_append.mp hmem).imp id List.mem_singleton.mp
  refine ⟨hs.keyed, hs.bounded, fun reset hmem c hc => ?_, fun reset hmem c hc => ?_,
    fun closed left hmem => ?_, ?_⟩
  · rcases hold reset hmem with hmem | rfl
    · exact hs.taken reset hmem c hc
    · cases hc
  · rcases hold reset hmem with hmem | rfl
    · exact hs.closed reset hmem c hc
    · cases hc
  · rcases hold _ hmem with hmem | heq
    · exact hs.complete closed left hmem
    · cases heq
  · refine (Finset.card_le_card fun c h => ?_).trans hs.lost
    rw [mem_lost_iff] at h ⊢
    exact ⟨h.1, h.2.1, fun reset hmem => h.2.2 reset (List.mem_append_left _ hmem)⟩

theorem Inv.advance (hs : s.Inv) (i : ℕ) (raised : Option Exc) : (s.advance i raised).Inv := by
  unfold TenantState.advance
  split
  · next hi => exact hs.clear hi
  · next tenants hi =>
    cases raised with
    | none =>
      exact hs.move hi (fun c h => h) (fun c h => by cases h) (fun c h _ => h)
        (fun _ _ h => by cases h)
    | some exc =>
      exact hs.move hi (fun c h => h) (fun c h => by cases h) (fun c h _ => h)
        (fun _ _ h => by cases h)
  · next closed hi =>
    refine hs.move hi (fun c h => h) (hs.closed (.closing closed []) (List.mem_of_getElem? hi))
      (fun c h _ => h) ?_
    intro closed' left h
    cases h
    rfl
  · next closed c tenants hi =>
    have hclosing := hs.close c
    have hdead : ∀ c' ∈ closed ++ [c], (s.registry.close c).isLive c' = false := by
      intro c' hc'
      rcases List.mem_append.mp hc' with hold | hnew
      · exact hclosing.closed _ (List.mem_of_getElem? hi) c' hold
      · rw [List.mem_singleton.mp hnew, Bool.eq_false_iff]
        exact fun hlive => (isLive_close_iff.mp hlive).2 rfl
    have hrest : ∀ c' ∈ c :: tenants, (s.registry.close c).isLive c' = true → c' ∈ tenants :=
      fun c' hc' hlive => (List.mem_cons.mp hc').resolve_left (isLive_close_iff.mp hlive).2
    have hsame : ∀ c', c' ∈ (closed ++ [c]) ++ tenants → c' ∈ closed ++ c :: tenants := by
      intro c' h
      rwa [List.append_assoc, List.singleton_append] at h
    simp only
    split
    · exact hclosing.move hi hsame hdead hrest (fun _ _ h => by cases h)
    · exact hclosing.move hi hsame hdead hrest (fun _ _ h => by cases h)
  · exact hs

theorem Inv.step (e : TenantEvent) (s : TenantState) (hs : s.Inv) : (step e s).Inv := by
  cases e with
  | forTenant tenantId projectId source failure =>
    exact hs.forTenant tenantId projectId source failure
  | close c => exact hs.close c
  | resetDefault => exact hs.join
  | advance i raised => exact hs.advance i raised

/-! ## A reset through a run -/

/-- A reset that is past the lock, with what it took there. -/
def Took (s : TenantState) (i : ℕ) (tenants : List ℕ) : Prop :=
  ∃ call, s.resets[i]? = some call ∧ call ≠ .clearing ∧ call.taken = tenants

theorem Took.setReset {tenants : List ℕ} {j : ℕ} {call : ResetCall} (h : s.Took i tenants)
    (hj : s.resets[j]? = some call) (registry : TenantRegistry) (call' : ResetCall)
    (hpast : call' ≠ .clearing) (htaken : call ≠ .clearing → call'.taken = call.taken) :
    ({ registry, resets := s.resets.set j call' } : TenantState).Took i tenants := by
  obtain ⟨call₀, hi, hpast₀, htaken₀⟩ := h
  rcases eq_or_ne j i with rfl | hne
  · obtain rfl := Option.some.inj (hj.symm.trans hi)
    exact ⟨call', getElem?_moved_self hi, hpast, (htaken hpast₀).trans htaken₀⟩
  · exact ⟨call₀, (List.getElem?_set_ne hne).trans hi, hpast₀, htaken₀⟩

/-- **What a reset took it keeps**, closed or not. -/
theorem Took.step {tenants : List ℕ} (e : TenantEvent) (s : TenantState) (h : s.Took i tenants) :
    (step e s).Took i tenants := by
  cases e with
  | forTenant tenantId projectId source failure => exact h
  | close c => exact h
  | resetDefault =>
    obtain ⟨call, hi, hpast, htaken⟩ := h
    exact ⟨call, getElem?_joined_old hi, hpast, htaken⟩
  | advance j raised =>
    simp only [TenantState.step]
    unfold TenantState.advance
    split
    · next hj =>
      exact h.setReset hj _ _ (by simp) fun hpast => absurd rfl hpast
    · next tenants' hj =>
      cases raised with
      | none => exact h.setReset hj s.registry (.closing [] tenants') (by simp) fun _ => rfl
      | some exc =>
        exact h.setReset hj s.registry (.ended [] tenants' (some exc)) (by simp) fun _ => rfl
    · next closed hj =>
      exact h.setReset hj s.registry (.ended closed [] none) (by simp) fun _ => rfl
    · next closed c tenants' hj =>
      have hsame : (closed ++ [c]) ++ tenants' = closed ++ c :: tenants' := by
        rw [List.append_assoc, List.singleton_append]
      simp only
      split
      · next exc _ =>
        exact h.setReset hj _ (.ended (closed ++ [c]) tenants' (some exc)) (by simp) fun _ => hsame
      · exact h.setReset hj _ (.closing (closed ++ [c]) tenants') (by simp) fun _ => hsame
    · exact h

/-! ## Every run -/

/-- What holds of the tenants in every state. -/
structure Accounted (s : TenantState) : Prop where
  bounded : s.registry.keys.length ≤ maxTenants
  key_unique : ∀ key key' c, s.registry.tenantRegistry.lookup key = some c →
    s.registry.tenantRegistry.lookup key' = some c → key = key'
  /-- What neither the registry nor a reset has is an eviction that was counted. -/
  lost : s.lost.card ≤ s.registry.evictedTotal
  open_le : s.openContainers.card ≤
    maxTenants + s.registry.evictedTotal + (s.resets.flatMap ResetCall.pending).length
  /-- A lookup answers with an open container that no reset has taken. -/
  answers : ∀ tenantId projectId source failure c registry',
    s.registry.forTenant tenantId projectId source failure = (.ok c, registry') →
      registry'.isLive c = true ∧ ∀ reset ∈ s.resets, c ∉ reset.taken

theorem Inv.open_le (hs : s.Inv) : s.openContainers.card ≤
    maxTenants + s.registry.evictedTotal + (s.resets.flatMap ResetCall.pending).length := by
  have hsubset : s.openContainers ⊆
      s.registry.tenants.toFinset ∪ s.lost ∪ (s.resets.flatMap ResetCall.pending).toFinset := by
    intro c h
    have hlive : s.registry.isLive c = true := (Finset.mem_filter.mp h).2
    simp only [Finset.mem_union, List.mem_toFinset, List.mem_flatMap]
    by_cases hmem : c ∈ s.registry.tenants
    · exact .inl (.inl hmem)
    · by_cases hpending : ∃ reset ∈ s.resets, c ∈ reset.pending
      · exact .inr hpending
      · refine .inl (.inr (mem_lost_iff.mpr ⟨hlive, hmem, fun reset hreset hc => ?_⟩))
        exact hpending ⟨reset, hreset, hc⟩
  have hcard := Finset.card_le_card hsubset
  have hunion := Finset.card_union_le (s.registry.tenants.toFinset ∪ s.lost)
    (s.resets.flatMap ResetCall.pending).toFinset
  have hunion' := Finset.card_union_le s.registry.tenants.toFinset s.lost
  have htenants := List.toFinset_card_le s.registry.tenants
  have hpending := List.toFinset_card_le (s.resets.flatMap ResetCall.pending)
  have hbounded := hs.bounded
  have hlost := hs.lost
  rw [length_tenants] at htenants
  omega

theorem Inv.accounted (hs : s.Inv) : s.Accounted where
  bounded := hs.bounded
  key_unique _ _ _ h h' := hs.keyed.key_unique h h'
  lost := hs.lost
  open_le := hs.open_le
  answers tenantId projectId source failure c registry' hout := by
    have hends := forTenant_ends s.registry tenantId projectId source failure
    rw [hout] at hends
    rcases hends with ⟨hlookup, hlive⟩ | - | ⟨-, h, -, -⟩
    · refine ⟨hlive, fun reset hmem hc => ?_⟩
      exact (hs.taken reset hmem c hc).2 (mem_tenants_iff.mpr ⟨_, hlookup⟩)
    · rename_i config registry'
      refine ⟨?_, fun reset hmem hc => ?_⟩
      · rw [isLive, TenantRegistry.register, List.getElem?_concat_length]
        rfl
      · have hlt := (hs.taken reset hmem _ hc).1
        rw [h.containers_eq] at hlt
        exact absurd hlt (lt_irrefl _)

end

/-- **The tenants over every run.** Whatever lookups, closes and resets
come in whatever order, open containers are accounted for, up to the
evictions counted; no lookup returns one that a reset has taken; and a
reset that ends without raising has closed all that was registered when it
emptied the registry. -/
theorem accounted_run (es : List TenantEvent) :
    let s := run step es {}
    s.Accounted ∧ ∀ i raised es', s.resets[i]? = some .clearing →
      let s' := run step es' (step (.advance i raised) s)
      ∀ closed left, s'.resets[i]? = some (.ended closed left none) →
        ∀ c ∈ s.registry.tenants, s'.registry.isLive c = false := by
  intro s
  have hs : s.Inv := run_of_kept Inv.step inv_init es
  refine ⟨hs.accounted, ?_⟩
  intro i raised es' hi s' closed left hended c hc
  have htook : (step (.advance i raised) s).Took i s.registry.tenants := by
    simp only [step, TenantState.advance, hi]
    exact ⟨_, getElem?_moved_self hi, by simp, rfl⟩
  have hs' : s'.Inv := run_of_kept Inv.step (hs.step (.advance i raised)) es'
  obtain ⟨call, hcall, -, htaken⟩ : s'.Took i s.registry.tenants := run_of_kept Took.step htook es'
  obtain rfl := Option.some.inj (hended.symm.trans hcall)
  have hmem := List.mem_of_getElem? hended
  obtain rfl := hs'.complete closed left hmem
  refine hs'.closed _ hmem c ?_
  rw [← htaken] at hc
  simpa [ResetCall.taken, ResetCall.pending] using hc

/-- A lookup of the tenant with both names given. -/
def asks (tenantId projectId : String) : TenantEvent :=
  .forTenant tenantId projectId (.supplied
    { baseUrl := "https://cp.test", projectId := some projectId, tenantId := some tenantId }) none

/-- A tenant looked up while a reset is at it gets a container of its own,
and the close that raises leaves the other tenant open. -/
example :
    let s := run step [asks "a" "p", asks "b" "p", .resetDefault, .advance 0 none, asks "a" "p",
      .advance 0 none, .advance 0 (some (.other "KeyboardInterrupt")), .advance 0 none] {}
    s.registry.tenants = [2] ∧ [0, 1, 2].map s.registry.isLive = [false, true, true] ∧
      s.resets.map ResetCall.pending = [[1]] := by
  decide +kernel

end TenantState

end Congine
