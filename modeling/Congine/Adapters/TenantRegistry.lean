import Congine.Infrastructure.SnapshotScope
import Mathlib.Data.List.AList
/-!
# The registry of tenant containers

`for_tenant` keeps the containers it constructs in a bounded registry,
the one looked up last at its front, under a key that joins the tenant
and the project. Asked again it returns what is registered under the key
without reading its configuration, so the two names of a container are
those asked for exactly while the key tells the registered pairs apart.

Building a configuration and constructing a container may fail: how they
end is an input. What a container consists of, its teardown and the
warning on eviction are left out.
-/

namespace Congine

open Text

/-- A container: its configuration, and whether it has been closed. -/
structure ServiceContainer where
  config : CongineConfig
  closed : Bool

/-- `_MAX_TENANTS`. -/
def maxTenants : ℕ := 128

/-- Where the configuration of a new container comes from. -/
inductive ConfigSource where
  /-- The `config` argument. -/
  | supplied (config : CongineConfig)
  /-- `from_env`, with the overrides of the other fields, and what validating
  the configuration with the two names put in raises. -/
  | environment (base : Except Exc CongineConfig) (refusal : Option Exc)

/-- The configuration `for_tenant` constructs a container with. -/
def resolveConfig (tenantId projectId : String) : ConfigSource → Except Exc CongineConfig
  | .supplied config =>
      if config.tenantId ≠ some tenantId ∨ config.projectId ≠ some projectId then
        .error (.congine .configuration)
      else .ok config
  | .environment base refusal =>
      base.bind fun base =>
        match refusal with
        | some exc => .error exc
        | none => .ok { base with tenantId := some tenantId, projectId := some projectId }

/-- A container is known by its place among those constructed. -/
structure TenantRegistry where
  /-- The keys from the one looked up last to the one looked up longest ago. -/
  tenantRegistry : AList fun _ : String => ℕ
  containers : List ServiceContainer
  evictedTotal : ℕ

/-- `f"{tenant_id}|{project_id}"`. -/
def registryKey (tenantId projectId : String) : String := join '|' [tenantId, projectId]

namespace TenantRegistry

def empty : TenantRegistry where
  tenantRegistry := ∅
  containers := []
  evictedTotal := 0

/-- The container has been constructed and not been closed. -/
def isLive (registry : TenantRegistry) (container : ℕ) : Bool :=
  registry.containers[container]?.any fun c => !c.closed

/-- The eviction pass of `for_tenant`. -/
def makeRoom (registry : TenantRegistry) : TenantRegistry :=
  if maxTenants ≤ registry.tenantRegistry.entries.length then
    match registry.tenantRegistry.entries.getLast? with
    | some oldest =>
        { registry with
          tenantRegistry := registry.tenantRegistry.erase oldest.1
          evictedTotal := registry.evictedTotal + 1 }
    | none => registry
  else registry

/-- Construct a container and register it. -/
def register (registry : TenantRegistry) (key : String) (config : CongineConfig) :
    TenantRegistry :=
  { registry with
    containers := registry.containers ++ [{ config, closed := false }]
    tenantRegistry := registry.tenantRegistry.insert key registry.containers.length }

/-- `for_tenant` from where no live container is registered under the key. -/
def construct (registry : TenantRegistry) (tenantId projectId : String) (source : ConfigSource)
    (failure : Option Exc) : Except Exc ℕ × TenantRegistry :=
  match resolveConfig tenantId projectId source with
  | .error exc => (.error exc, registry)
  | .ok config =>
      match failure with
      -- The eviction comes before the construction, and stays where that raises.
      | some exc => (.error exc, registry.makeRoom)
      | none =>
          (.ok registry.makeRoom.containers.length,
            registry.makeRoom.register (registryKey tenantId projectId) config)

/-- `for_tenant`; `failure` is what constructing the container raises. -/
def forTenant (registry : TenantRegistry) (tenantId projectId : String) (source : ConfigSource)
    (failure : Option Exc) : Except Exc ℕ × TenantRegistry :=
  let key := registryKey tenantId projectId
  match registry.tenantRegistry.lookup key with
  | none => registry.construct tenantId projectId source failure
  | some existing =>
      if registry.isLive existing then
        (.ok existing,
          { registry with tenantRegistry := registry.tenantRegistry.insert key existing })
      else
        -- A closed container is forgotten before its successor is made.
        { registry with tenantRegistry := registry.tenantRegistry.erase key }.construct
          tenantId projectId source failure

/-- `close()` on a container. -/
def close (registry : TenantRegistry) (container : ℕ) : TenantRegistry :=
  { registry with
    containers := registry.containers.modify container fun c => { c with closed := true } }

/-- What `reset_default` does under the lock; the closes after it are calls of their own. -/
def clear (registry : TenantRegistry) : TenantRegistry := { registry with tenantRegistry := ∅ }

end TenantRegistry

/-! ## Calls -/

inductive TenantCall where
  | forTenant (tenantId projectId : String) (source : ConfigSource) (failure : Option Exc)
  | close (container : ℕ)
  | clear

namespace TenantCall

def step : TenantCall → TenantRegistry → TenantRegistry
  | forTenant tenantId projectId source failure, registry =>
      (registry.forTenant tenantId projectId source failure).2
  | close container, registry => registry.close container
  | clear, registry => registry.clear

/-- The pair a call asks for and the container it returns, if it does. -/
def answer : TenantCall → TenantRegistry → Option ((String × String) × ℕ)
  | forTenant tenantId projectId source failure, registry =>
      match (registry.forTenant tenantId projectId source failure).1 with
      | .ok container => some ((tenantId, projectId), container)
      | .error _ => none
  | close _, _ | clear, _ => none

/-- The answers of a run, in order. -/
def answers : List TenantCall → TenantRegistry → List ((String × String) × ℕ)
  | [], _ => []
  | call :: calls, registry =>
      (call.answer registry).toList ++ answers calls (call.step registry)

end TenantCall

/-! ## What a call does -/

theorem registryKey_eq_iff {tenantId projectId tenantId' projectId' : String} :
    registryKey tenantId projectId = registryKey tenantId' projectId' ↔
      split '|' tenantId ++ split '|' projectId = split '|' tenantId' ++ split '|' projectId' := by
  rw [registryKey, registryKey, join_eq_iff '|' (List.cons_ne_nil _ _) (List.cons_ne_nil _ _)]
  simp

/-- **A configuration that is accepted bears the two names asked for.** -/
theorem resolveConfig_names {tenantId projectId : String} {source : ConfigSource}
    {config : CongineConfig} (h : resolveConfig tenantId projectId source = .ok config) :
    config.tenantId = some tenantId ∧ config.projectId = some projectId := by
  rcases source with supplied | ⟨_ | base, _ | exc⟩
  · simp only [resolveConfig] at h
    split_ifs at h with hnames
    rw [not_or, not_not, not_not] at hnames
    rw [← Except.ok.inj h]
    exact hnames
  · cases h
  · cases h
  · rw [← Except.ok.inj h]
    exact ⟨rfl, rfl⟩
  · cases h

namespace TenantRegistry

/-- The containers are the same and no key has come in. -/
structure Shrinks (registry registry' : TenantRegistry) : Prop where
  containers_eq : registry'.containers = registry.containers
  lookup_of : ∀ key container, registry'.tenantRegistry.lookup key = some container →
    registry.tenantRegistry.lookup key = some container

theorem Shrinks.refl (registry : TenantRegistry) : registry.Shrinks registry :=
  ⟨rfl, fun _ _ h => h⟩

theorem Shrinks.trans {registry registry' registry'' : TenantRegistry}
    (h : registry.Shrinks registry') (h' : registry'.Shrinks registry'') :
    registry.Shrinks registry'' where
  containers_eq := h'.containers_eq.trans h.containers_eq
  lookup_of key container hlookup := h.lookup_of key container (h'.lookup_of key container hlookup)

theorem shrinks_erase (registry : TenantRegistry) (key : String) :
    registry.Shrinks
      { registry with tenantRegistry := registry.tenantRegistry.erase key } where
  containers_eq := rfl
  lookup_of key' container h := by
    rcases eq_or_ne key' key with rfl | hne
    · rw [AList.lookup_erase] at h
      cases h
    · rwa [AList.lookup_erase_ne hne] at h

theorem shrinks_makeRoom (registry : TenantRegistry) : registry.Shrinks registry.makeRoom := by
  unfold makeRoom
  split_ifs
  · rcases registry.tenantRegistry.entries.getLast? with _ | oldest
    · exact Shrinks.refl registry
    · exact ⟨rfl, (registry.shrinks_erase oldest.1).lookup_of⟩
  · exact Shrinks.refl registry

/-- What `for_tenant` ends in: a live container is looked up, nothing is
constructed, or a container with the two names is, and registered. -/
inductive Ends (registry : TenantRegistry) (tenantId projectId : String) :
    Except Exc ℕ × TenantRegistry → Prop
  | hit {existing : ℕ}
      (hlookup : registry.tenantRegistry.lookup (registryKey tenantId projectId) = some existing)
      (hlive : registry.isLive existing = true) :
      Ends registry tenantId projectId (.ok existing,
        { registry with
          tenantRegistry := registry.tenantRegistry.insert (registryKey tenantId projectId)
            existing })
  | failed {exc : Exc} {registry' : TenantRegistry} (h : registry.Shrinks registry') :
      Ends registry tenantId projectId (.error exc, registry')
  | made {config : CongineConfig} {registry' : TenantRegistry}
      (hmiss : ∀ existing,
        registry.tenantRegistry.lookup (registryKey tenantId projectId) = some existing →
          registry.isLive existing = false)
      (h : registry.Shrinks registry') (htenant : config.tenantId = some tenantId)
      (hproject : config.projectId = some projectId) :
      Ends registry tenantId projectId (.ok registry'.containers.length,
        registry'.register (registryKey tenantId projectId) config)

theorem construct_ends {registry registry' : TenantRegistry} {tenantId projectId : String}
    (hmiss : ∀ existing,
      registry.tenantRegistry.lookup (registryKey tenantId projectId) = some existing →
        registry.isLive existing = false)
    (h : registry.Shrinks registry') (source : ConfigSource) (failure : Option Exc) :
    Ends registry tenantId projectId
      (registry'.construct tenantId projectId source failure) := by
  unfold construct
  rcases hconfig : resolveConfig tenantId projectId source with exc | config
  · exact .failed h
  · have hroom := h.trans registry'.shrinks_makeRoom
    rcases failure with _ | exc
    · obtain ⟨htenant, hproject⟩ := resolveConfig_names hconfig
      exact .made hmiss hroom htenant hproject
    · exact .failed hroom

theorem forTenant_ends (registry : TenantRegistry) (tenantId projectId : String)
    (source : ConfigSource) (failure : Option Exc) :
    Ends registry tenantId projectId
      (registry.forTenant tenantId projectId source failure) := by
  rcases hlookup : registry.tenantRegistry.lookup (registryKey tenantId projectId) with
    _ | existing
  · simp only [forTenant, hlookup]
    refine construct_ends (fun existing h => ?_) (Shrinks.refl registry) source failure
    rw [hlookup] at h
    cases h
  · rcases hlive : registry.isLive existing with _ | _
    · simp only [forTenant, hlookup, hlive, Bool.false_eq_true, if_false]
      refine construct_ends (fun existing' h => ?_) (registry.shrinks_erase _) source failure
      rw [hlookup, Option.some.injEq] at h
      rw [← h, hlive]
    · simp only [forTenant, hlookup, hlive, if_true]
      exact .hit hlookup hlive

/-! ## What every call keeps -/

/-- The container bears the two names. -/
def Named (registry : TenantRegistry) (container : ℕ) (tenantId projectId : String) : Prop :=
  ∃ c, registry.containers[container]? = some c ∧ c.config.tenantId = some tenantId ∧
    c.config.projectId = some projectId

theorem Named.unique {registry : TenantRegistry} {container : ℕ}
    {tenantId projectId tenantId' projectId' : String}
    (h : registry.Named container tenantId projectId)
    (h' : registry.Named container tenantId' projectId') :
    tenantId = tenantId' ∧ projectId = projectId' := by
  obtain ⟨c, hc, htenant, hproject⟩ := h
  obtain ⟨c', hc', htenant', hproject'⟩ := h'
  have heq : c = c' := Option.some.inj (hc.symm.trans hc')
  subst heq
  exact ⟨Option.some.inj (htenant.symm.trans htenant'),
    Option.some.inj (hproject.symm.trans hproject')⟩

/-- What is registered under a key bears names that make the key. -/
def Keyed (registry : TenantRegistry) : Prop :=
  ∀ key container, registry.tenantRegistry.lookup key = some container →
    ∃ tenantId projectId, registry.Named container tenantId projectId ∧
      key = registryKey tenantId projectId

theorem keyed_empty : empty.Keyed := by
  intro key container h
  cases h

/-- The names of the containers there are stay. -/
def Extends (registry registry' : TenantRegistry) : Prop :=
  ∀ container tenantId projectId, registry.Named container tenantId projectId →
    registry'.Named container tenantId projectId

theorem Shrinks.extends {registry registry' : TenantRegistry} (h : registry.Shrinks registry') :
    registry.Extends registry' := by
  intro container tenantId projectId hnamed
  unfold Named
  rw [h.containers_eq]
  exact hnamed

/-- Where no key comes in, names that stay make the keys still. -/
theorem Keyed.of_lookup {registry registry' : TenantRegistry} (hkeyed : registry.Keyed)
    (hextends : registry.Extends registry')
    (hlookup : ∀ key container, registry'.tenantRegistry.lookup key = some container →
      registry.tenantRegistry.lookup key = some container) : registry'.Keyed := by
  intro key container hfound
  obtain ⟨tenantId, projectId, hnamed, hkey⟩ := hkeyed key container (hlookup key _ hfound)
  exact ⟨tenantId, projectId, hextends _ _ _ hnamed, hkey⟩

theorem Shrinks.keyed {registry registry' : TenantRegistry} (h : registry.Shrinks registry')
    (hkeyed : registry.Keyed) : registry'.Keyed :=
  hkeyed.of_lookup h.extends h.lookup_of

theorem extends_register (registry : TenantRegistry) (key : String) (config : CongineConfig) :
    registry.Extends (registry.register key config) := by
  rintro container tenantId projectId ⟨c, hc, hnames⟩
  refine ⟨c, ?_, hnames⟩
  have hlt : container < registry.containers.length := (List.getElem?_eq_some_iff.mp hc).1
  show (registry.containers ++ _)[container]? = some c
  rw [List.getElem?_append_left hlt, hc]

theorem named_register (registry : TenantRegistry) (key : String) {config : CongineConfig}
    {tenantId projectId : String} (htenant : config.tenantId = some tenantId)
    (hproject : config.projectId = some projectId) :
    (registry.register key config).Named registry.containers.length tenantId projectId :=
  ⟨⟨config, false⟩, List.getElem?_concat_length, htenant, hproject⟩

theorem Keyed.register {registry : TenantRegistry} (h : registry.Keyed) {config : CongineConfig}
    {tenantId projectId : String} (htenant : config.tenantId = some tenantId)
    (hproject : config.projectId = some projectId) :
    (registry.register (registryKey tenantId projectId) config).Keyed := by
  intro key container hlookup
  rcases eq_or_ne key (registryKey tenantId projectId) with rfl | hne
  · have hnew : container = registry.containers.length := by
      simpa [TenantRegistry.register] using hlookup.symm
    rw [hnew]
    exact ⟨tenantId, projectId, named_register registry _ htenant hproject, rfl⟩
  · have hold : registry.tenantRegistry.lookup key = some container := by
      rwa [TenantRegistry.register, AList.lookup_insert_ne hne] at hlookup
    obtain ⟨tenantId', projectId', hnamed, hkey⟩ := h key container hold
    exact ⟨tenantId', projectId', extends_register registry _ config _ _ _ hnamed, hkey⟩

theorem Ends.keyed {registry : TenantRegistry} {tenantId projectId : String}
    {out : Except Exc ℕ × TenantRegistry} (h : registry.Ends tenantId projectId out)
    (hkeyed : registry.Keyed) : out.2.Keyed := by
  rcases h with ⟨hlookup, -⟩ | h | ⟨-, h, htenant, hproject⟩
  · refine hkeyed.of_lookup (fun _ _ _ hnamed => hnamed) fun key container hkey => ?_
    rcases eq_or_ne key (registryKey tenantId projectId) with rfl | hne
    · rw [AList.lookup_insert] at hkey
      exact hlookup.trans hkey
    · rwa [AList.lookup_insert_ne hne] at hkey
  · exact h.keyed hkeyed
  · exact (h.keyed hkeyed).register htenant hproject

theorem Ends.extends {registry : TenantRegistry} {tenantId projectId : String}
    {out : Except Exc ℕ × TenantRegistry} (h : registry.Ends tenantId projectId out) :
    registry.Extends out.2 := by
  rcases h with - | h | ⟨-, h, -, -⟩
  · exact fun _ _ _ hnamed => hnamed
  · exact h.extends
  · exact fun _ _ _ hnamed => extends_register _ _ _ _ _ _ (h.extends _ _ _ hnamed)

theorem named_close {registry : TenantRegistry} {closed container : ℕ}
    {tenantId projectId : String} :
    (registry.close closed).Named container tenantId projectId ↔
      registry.Named container tenantId projectId := by
  unfold Named close
  rw [List.getElem?_modify]
  rcases hc : registry.containers[container]? with _ | c
  · simp
  · rcases eq_or_ne closed container with rfl | hne
    · simp
    · simp [hne]

theorem extends_close (registry : TenantRegistry) (closed : ℕ) :
    registry.Extends (registry.close closed) := fun _ _ _ hnamed => named_close.mpr hnamed

/-- What a call adds bears the names asked for. -/
theorem Ends.named_of {registry : TenantRegistry} {tenantId projectId : String}
    {out : Except Exc ℕ × TenantRegistry} (h : registry.Ends tenantId projectId out)
    {container : ℕ} {tenantId' projectId' : String}
    (hnamed : out.2.Named container tenantId' projectId') :
    registry.Named container tenantId' projectId' ∨
      tenantId' = tenantId ∧ projectId' = projectId := by
  rcases h with - | h | ⟨-, h, htenant, hproject⟩
  · exact Or.inl hnamed
  · unfold Named at hnamed
    rw [h.containers_eq] at hnamed
    exact Or.inl hnamed
  · obtain ⟨c, hc, htenant', hproject'⟩ := hnamed
    simp only [TenantRegistry.register, h.containers_eq] at hc
    rcases Nat.lt_trichotomy container registry.containers.length with hlt | rfl | hgt
    · rw [List.getElem?_append_left hlt] at hc
      exact Or.inl ⟨c, hc, htenant', hproject'⟩
    · rw [List.getElem?_concat_length] at hc
      rw [← Option.some.inj hc] at htenant' hproject'
      exact Or.inr ⟨Option.some.inj (htenant'.symm.trans htenant),
        Option.some.inj (hproject'.symm.trans hproject)⟩
    · have hbound := (List.getElem?_eq_some_iff.mp hc).1
      rw [List.length_append, List.length_singleton] at hbound
      omega

end TenantRegistry

namespace TenantCall

open TenantRegistry

theorem step_extends (call : TenantCall) (registry : TenantRegistry) :
    registry.Extends (call.step registry) := by
  rcases call with ⟨tenantId, projectId, source, failure⟩ | container | -
  · exact (forTenant_ends registry tenantId projectId source failure).extends
  · exact extends_close registry container
  · exact fun _ _ _ hnamed => hnamed

theorem step_keyed (call : TenantCall) (registry : TenantRegistry) (h : registry.Keyed) :
    (call.step registry).Keyed := by
  rcases call with ⟨tenantId, projectId, source, failure⟩ | container | -
  · exact (forTenant_ends registry tenantId projectId source failure).keyed h
  · exact h.of_lookup (extends_close registry container) fun _ _ hlookup => hlookup
  · intro key container hlookup
    cases hlookup

theorem run_extends (calls : List TenantCall) (registry : TenantRegistry) :
    registry.Extends (run step calls registry) := by
  induction calls generalizing registry with
  | nil => exact fun _ _ _ hnamed => hnamed
  | cons call calls ih =>
    exact fun _ _ _ hnamed =>
      ih (call.step registry) _ _ _ (step_extends call registry _ _ _ hnamed)

/-! ## Isolation -/

/-- The container a call returns bears the two names asked for. -/
def Scoped : TenantCall → TenantRegistry → Prop
  | forTenant tenantId projectId source failure, registry => ∀ container,
      (registry.forTenant tenantId projectId source failure).1 = .ok container →
        (registry.forTenant tenantId projectId source failure).2.Named container tenantId projectId
  | close _, _ | clear, _ => True

/-- No live registered container of other names has the segments of the
names asked for. -/
def Unshared : TenantCall → TenantRegistry → Prop
  | forTenant tenantId projectId _ _, registry => ∀ key container tenantId' projectId',
      registry.tenantRegistry.lookup key = some container → registry.isLive container = true →
      registry.Named container tenantId' projectId' →
      split '|' tenantId' ++ split '|' projectId' = split '|' tenantId ++ split '|' projectId →
        tenantId' = tenantId ∧ projectId' = projectId
  | close _, _ | clear, _ => True

/-- **A call returns what was asked for** exactly where no live container of
other names shares the segments. -/
theorem scoped_iff_unshared (call : TenantCall) {registry : TenantRegistry}
    (hkeyed : registry.Keyed) : call.Scoped registry ↔ call.Unshared registry := by
  rcases call with ⟨tenantId, projectId, source, failure⟩ | container | -
  · have hends := forTenant_ends registry tenantId projectId source failure
    constructor
    · intro hscoped key container tenantId' projectId' hlookup hlive hnamed hsegments
      obtain ⟨_, _, hnamed', hkey⟩ := hkeyed key container hlookup
      obtain ⟨rfl, rfl⟩ := hnamed.unique hnamed'
      rw [hkey, registryKey_eq_iff.mpr hsegments] at hlookup
      have hhit : registry.forTenant tenantId projectId source failure = (.ok container,
          { registry with
            tenantRegistry := registry.tenantRegistry.insert (registryKey tenantId projectId)
              container }) := by
        simp only [TenantRegistry.forTenant, hlookup, hlive, if_true]
      have hasked := hscoped container (by rw [hhit])
      rw [hhit] at hasked
      exact hnamed.unique hasked
    · intro hunshared container hok
      rcases hout : registry.forTenant tenantId projectId source failure with ⟨result, registry'⟩
      rw [hout] at hends hok
      rcases hends with ⟨hlookup, hlive⟩ | - | ⟨-, -, htenant, hproject⟩
      · obtain rfl := Except.ok.inj hok
        obtain ⟨tenantId', projectId', hnamed, hkey⟩ := hkeyed _ _ hlookup
        obtain ⟨rfl, rfl⟩ := hunshared _ _ _ _ hlookup hlive hnamed
          (registryKey_eq_iff.mp hkey).symm
        exact hnamed
      · cases hok
      · rw [← Except.ok.inj hok]
        exact named_register _ _ htenant hproject
  · exact Iff.rfl
  · exact Iff.rfl

/-- What is answered in a scoped run bears its names to the end. -/
theorem named_of_mem_answers {calls : List TenantCall} {registry : TenantRegistry}
    (hscoped : Along step Scoped calls registry) {tenantId projectId : String} {container : ℕ}
    (hmem : ((tenantId, projectId), container) ∈ answers calls registry) :
    (run step calls registry).Named container tenantId projectId := by
  induction calls generalizing registry with
  | nil => cases hmem
  | cons call calls ih =>
    obtain ⟨hcall, hcalls⟩ := hscoped
    rcases List.mem_append.mp hmem with hfirst | hrest
    · have hnamed : (call.step registry).Named container tenantId projectId := by
        rcases call with ⟨tenantId', projectId', source, failure⟩ | container' | -
        · simp only [answer, Option.mem_toList] at hfirst
          rcases hok : (registry.forTenant tenantId' projectId' source failure).1 with exc | made
          · simp [hok] at hfirst
          · simp only [hok, Option.some.injEq, Prod.mk.injEq] at hfirst
            obtain ⟨⟨rfl, rfl⟩, rfl⟩ := hfirst
            exact hcall made hok
        · cases hfirst
        · cases hfirst
      exact run_extends calls _ _ _ _ hnamed
    · exact ih hcalls hrest

/-- **Containers are isolated exactly along the runs that never meet the
segments of other names.** Isolated: each returned container bears the two
names asked for, and calls with different names return different
containers. -/
theorem isolated_iff_unshared (calls : List TenantCall) :
    (Along step Scoped calls empty ∧
      ∀ a ∈ answers calls empty, ∀ b ∈ answers calls empty, a.1 ≠ b.1 → a.2 ≠ b.2) ↔
      Along step Unshared calls empty := by
  constructor
  · rintro ⟨hscoped, -⟩
    exact along_of_invariant (fun call registry _ h => step_keyed call registry h)
      (fun call _ hcall h => (scoped_iff_unshared call h).mp hcall) hscoped keyed_empty
  · intro hunshared
    have hscoped : Along step Scoped calls empty :=
      along_of_invariant (fun call registry _ h => step_keyed call registry h)
        (fun call _ hcall h => (scoped_iff_unshared call h).mpr hcall) hunshared keyed_empty
    refine ⟨hscoped, ?_⟩
    rintro ⟨⟨tenantId, projectId⟩, container⟩ ha ⟨⟨tenantId', projectId'⟩, container'⟩ hb hne heq
    obtain rfl : container = container' := heq
    obtain ⟨rfl, rfl⟩ := (named_of_mem_answers hscoped ha).unique (named_of_mem_answers hscoped hb)
    exact hne rfl

/-- The tenant asked for has no separator in its name. -/
def Plain : TenantCall → Prop
  | forTenant tenantId _ _ _ => '|' ∉ tenantId.toList
  | close _ | clear => True

/-- No tenant of a container has the separator in its name. -/
def PlainNames (registry : TenantRegistry) : Prop :=
  ∀ container tenantId projectId, registry.Named container tenantId projectId →
    '|' ∉ tenantId.toList

theorem step_plainNames (call : TenantCall) (registry : TenantRegistry) (hcall : call.Plain)
    (h : PlainNames registry) : PlainNames (call.step registry) := by
  intro container tenantId projectId hnamed
  rcases call with ⟨tenantId', projectId', source, failure⟩ | closed | -
  · rcases (forTenant_ends registry tenantId' projectId' source failure).named_of hnamed with
      hold | ⟨rfl, -⟩
    · exact h _ _ _ hold
    · exact hcall
  · exact h _ _ _ (named_close.mp hnamed)
  · exact h _ _ _ hnamed

/-- **Tenants without the separator in their names never share a container.** -/
theorem unshared_of_plain {calls : List TenantCall} (h : ∀ call ∈ calls, call.Plain) :
    Along step Unshared calls empty := by
  have hplain : Along step (fun call _ => call.Plain) calls empty :=
    along_of_forall (fun call hmem _ => h call hmem) empty
  have hempty : PlainNames empty := by
    rintro container tenantId projectId ⟨c, hc, -⟩
    cases hc
  refine along_of_invariant step_plainNames ?_ hplain hempty
  rintro (⟨tenantId, projectId, source, failure⟩ | closed | -) registry hcall hs
  · intro key container tenantId' projectId' _ _ hnamed hsegments
    rw [split_eq_singleton hcall, split_eq_singleton (hs _ _ _ hnamed)] at hsegments
    obtain ⟨htenant, hproject⟩ := List.cons.inj hsegments
    exact ⟨htenant, split_injective '|' hproject⟩
  · trivial
  · trivial

/-- A call that supplies a configuration with its two names. -/
def asks (tenantId projectId : String) : TenantCall :=
  forTenant tenantId projectId (.supplied
    { baseUrl := "https://cp.test", projectId := some projectId, tenantId := some tenantId }) none

/-- Two calls for different names that share their segments. -/
def sharedCalls : List TenantCall := [asks "a|b" "c", asks "a" "b|c"]

/-- **The second tenant is handed the container of the first.** -/
theorem containers_shared :
    answers sharedCalls empty = [(("a|b", "c"), 0), (("a", "b|c"), 0)] ∧
      ¬ Along step Scoped sharedCalls empty := by
  have hanswers : answers sharedCalls empty = [(("a|b", "c"), 0), (("a", "b|c"), 0)] := by
    decide +kernel
  refine ⟨hanswers, fun hscoped => ?_⟩
  have hfirst : (run step sharedCalls empty).Named 0 "a|b" "c" :=
    named_of_mem_answers hscoped (by rw [hanswers]; decide)
  have hsecond : (run step sharedCalls empty).Named 0 "a" "b|c" :=
    named_of_mem_answers hscoped (by rw [hanswers]; decide)
  exact absurd (hfirst.unique hsecond).1 (by decide)

end TenantCall

end Congine
