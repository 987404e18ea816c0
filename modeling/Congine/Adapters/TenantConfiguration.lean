import Congine.Adapters.TenantRegistry
import Congine.Kernel.AcceptedConfiguration
/-!
# The configuration of a tenant

Where `for_tenant` is given no configuration it reads the environment,
puts the names of the tenant and of the project in and constructs again. So
the environment has to stand on its own before the names are put in: one
that holds a control plane off the loopback and no names of its own serves
no tenant, whatever names are asked for.
-/

namespace Congine

namespace Configuration

/-- What the `config_overrides` of `for_tenant` make of the fields of the
base; names of no field are dropped. The two names are parameters of their
own, so they are never among them. -/
abbrev Overrides := Arguments → Arguments

/-- What `replace` hands the constructor. The mode is no override. -/
def tenantArguments (tenantId projectId : String) (overrides : Overrides) (base : CongineConfig) :
    Arguments :=
  { overrides base.arguments with
    tenantId := some tenantId
    projectId := some projectId
    deploymentMode := .member .multiTenant }

variable [Host] (checks : Url.NetlocChecks)

/-- The configuration `for_tenant` constructs a container with, given none. -/
def tenantConfig (floats : String → Bool) (env : Env) (tenantId projectId : String)
    (overrides : Overrides) : Except Fault CongineConfig := do
  let base ← fromEnv checks floats env
  construct checks (tenantArguments tenantId projectId overrides base)

/-! ## As the registry has it -/

/-- What a handler sees of a fault. -/
def Fault.exc : Fault → Exc
  | .configuration _ => .congine .configuration
  | .raised exc => exc

/-- The part of a configuration the registry and the snapshots are about. -/
def CongineConfig.scope (c : CongineConfig) : Congine.CongineConfig where
  baseUrl := c.baseUrl
  projectId := c.projectId
  tenantId := c.tenantId
  snapshotDir := c.snapshotDir

/-- How a configuration is made, to one who tells no messages apart. -/
def asRegistered (made : Except Fault CongineConfig) : Except Exc Congine.CongineConfig :=
  (made.mapError Fault.exc).map CongineConfig.scope

def fault? : Except Fault CongineConfig → Option Exc
  | .error fault => some fault.exc
  | .ok _ => none

/-- The environment, as the source of the configuration of a tenant. -/
def environmentSource (floats : String → Bool) (env : Env) (tenantId projectId : String) :
    ConfigSource :=
  .environment (asRegistered (fromEnv checks floats env))
    (fault? (tenantConfig checks floats env tenantId projectId id))

variable {checks} {floats : String → Bool} {env : Env} {tenantId projectId : String}

theorem tenantConfig_ok_iff {overrides : Overrides} {c : CongineConfig} :
    tenantConfig checks floats env tenantId projectId overrides = .ok c ↔
      ∃ base, fromEnv checks floats env = .ok base ∧
        Reads (tenantArguments tenantId projectId overrides base) c ∧
        Permitted checks (tenantArguments tenantId projectId overrides base).toSettings := by
  simp only [tenantConfig, bind_eq_ok, construct_iff]

/-- What the environment makes, it reads as itself and permits. -/
theorem fromEnv_valid {c : CongineConfig} (h : fromEnv checks floats env = .ok c) :
    Reads c.arguments c ∧ Permitted checks c.toSettings := by
  obtain ⟨_, _, _, _, _, _, hconstruct⟩ := fromEnv_ok_iff.mp h
  obtain ⟨hreads, hpermitted⟩ := construct_iff.mp hconstruct
  rw [← hreads.settings] at hpermitted
  exact ⟨hreads.again, hpermitted⟩

/-- The base with its names and its mode put in. -/
def CongineConfig.forTenant (c : CongineConfig) (tenantId projectId : String) : CongineConfig :=
  { c with
    tenantId := some tenantId
    projectId := some projectId
    deploymentMode := .multiTenant }

omit [Host] in
/-- Without overrides the arguments read as the base with its names put in. -/
theorem reads_tenantArguments {base c : CongineConfig} (hbase : Reads base.arguments base) :
    Reads (tenantArguments tenantId projectId id base) c ↔
      c = base.forTenant tenantId projectId := by
  constructor
  · intro h
    obtain ⟨settings, region, native, semantic, failMode, source, mode, admission⟩ := c
    have hsettings : settings = _ := h.settings
    have hregion := RawEnum.reads_member.mp h.region
    have hfail := RawEnum.reads_member.mp h.failMode
    have hsource := RawEnum.reads_member.mp h.contractSource
    have hmode := RawEnum.reads_member.mp h.deploymentMode
    have hadmission := RawEnum.reads_member.mp h.contractAdmission
    have hnative := h.native.of_rawCap
    have hsemantic := h.semantic.of_rawCap
    simp only at hregion hfail hsource hmode hadmission hnative hsemantic
    subst hsettings hregion hfail hsource hmode hadmission hnative hsemantic
    rfl
  · rintro rfl
    exact {
      settings := rfl
      region := hbase.region
      failMode := hbase.failMode
      contractSource := hbase.contractSource
      deploymentMode := RawEnum.reads_member.mpr rfl
      contractAdmission := hbase.contractAdmission
      native := hbase.native
      semantic := hbase.semantic }

omit [Host] in
/-- The names put in are what the policy asks of a tenant. -/
theorem permitted_tenantArguments {base : CongineConfig} (h : Permitted checks base.toSettings) :
    Permitted checks (tenantArguments tenantId projectId id base).toSettings ↔
      OnLoopback base.baseUrl ∨ tenantId ≠ "" ∧ projectId ≠ "" := by
  have hmissing : ∀ value : String, missing (some value) = false ↔ value ≠ "" := by
    intro value
    simp [missing]
  constructor
  · intro hp
    rcases hp.remote with hlocal | ⟨⟨-, hproject, htenant⟩, -⟩
    · exact .inl hlocal
    · exact .inr ⟨(hmissing _).mp htenant, (hmissing _).mp hproject⟩
  · intro hnames
    refine ⟨h.splits, ?_⟩
    rcases h.remote with hlocal | ⟨⟨hkey, -, -⟩, htransport⟩
    · exact .inl hlocal
    · exact hnames.imp id fun ⟨htenant, hproject⟩ =>
        ⟨⟨hkey, (hmissing _).mpr hproject, (hmissing _).mpr htenant⟩, htransport⟩

theorem tenantConfig_plain_iff {c : CongineConfig} :
    tenantConfig checks floats env tenantId projectId id = .ok c ↔
      ∃ base, fromEnv checks floats env = .ok base ∧
        (OnLoopback base.baseUrl ∨ tenantId ≠ "" ∧ projectId ≠ "") ∧
        c = base.forTenant tenantId projectId := by
  rw [tenantConfig_ok_iff]
  refine exists_congr fun base => and_congr_right fun hbase => ?_
  obtain ⟨hreads, hpermitted⟩ := fromEnv_valid hbase
  rw [reads_tenantArguments hreads, permitted_tenantArguments hpermitted, and_comm]

/-- **The registry reads the environment** as it is read here. -/
theorem resolveConfig_environmentSource :
    resolveConfig tenantId projectId (environmentSource checks floats env tenantId projectId) =
      asRegistered (tenantConfig checks floats env tenantId projectId id) := by
  unfold environmentSource resolveConfig
  cases hbase : fromEnv checks floats env with
  | error fault =>
    have hmade : tenantConfig checks floats env tenantId projectId id = .error fault := by
      rw [tenantConfig, hbase]
      rfl
    rw [hmade]
    rfl
  | ok base =>
    cases hmade : tenantConfig checks floats env tenantId projectId id with
    | error fault => rfl
    | ok c =>
      obtain ⟨base', hbase', -, rfl⟩ := tenantConfig_plain_iff.mp hmade
      obtain rfl := Except.ok.inj (hbase.symm.trans hbase')
      rfl

/-- **The configuration of a tenant.** Under any overrides it is one the
policy permits, in the mode of many tenants and under its names, and the
environment it came of is one the policy permits without it: off the loopback that had credentials
and names of its own. Without overrides it is the environment's with the
names put in, and is refused beyond that only where a name is empty off the
loopback. -/
theorem tenantConfig_spec (checks : Url.NetlocChecks) (floats : String → Bool) (env : Env)
    (tenantId projectId : String) :
    (∀ overrides c, tenantConfig checks floats env tenantId projectId overrides = .ok c →
      Permitted checks c.toSettings ∧ c.deploymentMode = .multiTenant ∧
      c.tenantId = some tenantId ∧ c.projectId = some projectId ∧
      ∃ base, fromEnv checks floats env = .ok base ∧
        (OnLoopback base.baseUrl ∨ Complete base.toSettings)) ∧
    ∀ c, tenantConfig checks floats env tenantId projectId id = .ok c ↔
      ∃ base, fromEnv checks floats env = .ok base ∧
        (OnLoopback base.baseUrl ∨ tenantId ≠ "" ∧ projectId ≠ "") ∧
        c = base.forTenant tenantId projectId := by
  refine ⟨fun overrides c hc => ?_, fun c => tenantConfig_plain_iff⟩
  obtain ⟨base, hbase, hreads, hpermitted⟩ := tenantConfig_ok_iff.mp hc
  obtain ⟨-, hbasePermitted⟩ := fromEnv_valid hbase
  have hsettings := hreads.settings
  rw [← hsettings] at hpermitted
  refine ⟨hpermitted, (RawEnum.reads_member.mp hreads.deploymentMode).symm, ?_, ?_, base, hbase,
    hbasePermitted.remote.imp id And.left⟩
  · rw [hsettings]
    rfl
  · rw [hsettings]
    rfl

end Configuration

end Congine
