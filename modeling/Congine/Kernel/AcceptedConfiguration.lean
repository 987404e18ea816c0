import Congine.Common.Checked
import Congine.Kernel.Configuration
/-!
# What construction accepts

Which arguments make an instance, in terms of what they say: the local
exemption is of the host the base URL was written with, whatever else is
written around it. The environment is another way to hand over the same
arguments, and no variable makes it raise outside the configuration error
but a base URL whose location is refused.
-/

namespace Congine

namespace Configuration

/-! ## The loopback -/

variable (checks : Url.NetlocChecks)

/-- The splitter takes the URL. -/
def Splits (baseUrl : String) : Prop :=
  Url.netlocOk checks (Url.netloc (Url.clean baseUrl.toList)) = true

/-- The URL was written with a local host: behind a scheme or none and
behind user information or none, before a port, a path, a query and a
fragment or none of them. -/
def OnLoopback (baseUrl : String) : Prop :=
  ∃ loc host, Url.Located (Url.clean baseUrl.toList) loc ∧ Url.Names loc host ∧
    String.ofList (lower host) ∈ localHosts

/-- The URL was written for an encrypted transport. -/
def WrittenHttps (baseUrl : String) : Prop :=
  ∃ rest, lower baseUrl.toList = "https://".toList ++ rest

variable {checks}

theorem names_nil {host : List Char} (h : Url.Names [] host) : host = [] := by
  have hok : Url.netlocOk ⟨fun _ => true, fun _ => true⟩ [] = true := by decide
  exact ((Url.hostname_eq_iff hok).mpr h).symm

/-- **The exemption is of the host that was written**, and of no other part. -/
theorem isLocalBaseUrl_iff {baseUrl : String} :
    isLocalBaseUrl checks baseUrl = some true ↔ Splits checks baseUrl ∧ OnLoopback baseUrl := by
  unfold isLocalBaseUrl Splits OnLoopback
  simp only [Option.ite_none_right_eq_some, Option.some.injEq, decide_eq_true_eq]
  refine and_congr_right fun hok => ?_
  constructor
  · intro hlocal
    have hnames := (Url.hostname_eq_iff hok).mp rfl
    have hne : Url.netloc (Url.clean baseUrl.toList) ≠ [] := by
      intro hnil
      rw [hnil] at hnames hlocal
      rw [names_nil hnames] at hlocal
      exact absurd hlocal (by decide)
    exact ⟨_, _, (Url.netloc_iff hne).mp rfl, hnames, hlocal⟩
  · rintro ⟨loc, host, hlocated, hnames, hlocal⟩
    have hne : loc ≠ [] := by
      rintro rfl
      rw [names_nil hnames] at hlocal
      exact absurd hlocal (by decide)
    obtain rfl := (Url.netloc_iff hne).mpr hlocated
    rw [(Url.hostname_eq_iff hok).mpr hnames]
    exact hlocal

theorem isLocalBaseUrl_eq_none {baseUrl : String} :
    isLocalBaseUrl checks baseUrl = none ↔ ¬ Splits checks baseUrl := by
  unfold isLocalBaseUrl Splits
  simp

theorem isHttps_iff {c : Settings} : c.isHttps = true ↔ WrittenHttps c.baseUrl := by
  rw [Settings.isHttps, List.isPrefixOf_iff_prefix]
  exact ⟨fun ⟨rest, h⟩ => ⟨rest, h.symm⟩, fun ⟨rest, h⟩ => ⟨rest, h.symm⟩⟩

/-! ## The policy -/

/-- Every credential is there. -/
def Complete (c : Settings) : Prop :=
  missing c.apiKey = false ∧ missing c.projectId = false ∧ missing c.tenantId = false

/-- **What the policy asks**: the loopback, or credentials over a transport
that is encrypted unless that was waived. -/
structure Permitted (checks : Url.NetlocChecks) (c : Settings) : Prop where
  splits : Splits checks c.baseUrl
  remote : OnLoopback c.baseUrl ∨
    Complete c ∧ (c.requireHttps = true → c.allowCleartext = false → WrittenHttps c.baseUrl)

theorem missingCredentials_eq_nil {c : Settings} : c.missingCredentials = [] ↔ Complete c := by
  simp [Settings.missingCredentials, Complete, List.filter_eq_nil_iff]

variable [Host]

theorem validate_ok_iff {c : Settings} : c.validate checks = .ok () ↔ Permitted checks c := by
  unfold Settings.validate
  rcases hlocal : isLocalBaseUrl checks c.baseUrl with _ | _ | _
  · have hsplits := isLocalBaseUrl_eq_none.mp hlocal
    exact ⟨fun h => (by cases h), fun h => absurd h.splits hsplits⟩
  · have hsplits : Splits checks c.baseUrl := by
      by_contra hn
      rw [isLocalBaseUrl_eq_none.mpr hn] at hlocal
      cases hlocal
    have hremote : ¬ OnLoopback c.baseUrl := by
      intro h
      rw [isLocalBaseUrl_iff.mpr ⟨hsplits, h⟩] at hlocal
      cases hlocal
    have hpermitted : Permitted checks c ↔ Complete c ∧
        (c.requireHttps = true → c.allowCleartext = false → WrittenHttps c.baseUrl) :=
      ⟨fun h => h.remote.resolve_left hremote, fun h => ⟨hsplits, .inr h⟩⟩
    rw [hpermitted, ← missingCredentials_eq_nil, ← isHttps_iff]
    by_cases hmissing : c.missingCredentials = []
    · simp only [hmissing, ne_eq, not_true_eq_false, if_false]
      cases c.requireHttps <;> cases c.allowCleartext <;> cases c.isHttps <;> simp
    · simp [hmissing]
  · obtain ⟨hsplits, hloopback⟩ := isLocalBaseUrl_iff.mp hlocal
    exact ⟨fun _ => ⟨hsplits, .inl hloopback⟩, fun _ => rfl⟩

/-! ## Construction -/

/-- The member an argument stands for. -/
def RawEnum.Reads {E : Type} [WireEnum E] (raw : RawEnum E) (e : E) : Prop :=
  raw = .member e ∨ ∃ value, raw = .text value ∧ memberOf E value = some e

/-- The cap an argument stands for, within the aggregate. -/
def CapReads (raw : RawCap) (aggregateMs : ℤ) : Option ℤ → Prop
  | none => raw = .none
  | some cap => raw = .int cap ∧ 0 < cap ∧ cap ≤ aggregateMs

omit [Host] in
theorem RawEnum.reads_functional {E : Type} [WireEnum E] {raw : RawEnum E} {e e' : E}
    (h : raw.Reads e) (h' : raw.Reads e') : e = e' := by
  rcases h with rfl | ⟨value, rfl, h⟩ <;> rcases h' with h' | ⟨value', h', hmember⟩
  · exact RawEnum.member.inj h'
  · cases h'
  · cases h'
  · obtain rfl := RawEnum.text.inj h'
    exact Option.some.inj (h.symm.trans hmember)

theorem normalize_ok_iff {E : Type} [WireEnum E] {name : String} {raw : RawEnum E} {e : E} :
    normalize name raw = .ok e ↔ raw.Reads e := by
  cases raw with
  | member e' => simp [normalize, RawEnum.Reads]
  | other typeName => simp [normalize, RawEnum.Reads]
  | text value =>
    simp only [normalize, RawEnum.Reads, reduceCtorEq, RawEnum.text.injEq, false_or,
      exists_eq_left']
    cases memberOf E value with
    | none => simp
    | some e' => simp

theorem stageBudget_ok_iff {name : String} {aggregateMs : ℤ} {raw : RawCap} {cap : Option ℤ} :
    stageBudget name aggregateMs raw = .ok cap ↔ CapReads raw aggregateMs cap := by
  have hraises : ∀ message : Except Fault String,
      (message.bind fun message => (.error (.configuration message) : Except Fault (Option ℤ))) ≠
        .ok cap := by
    rintro (fault | message) h <;> cases h
  cases raw with
  | none => cases cap <;> simp [stageBudget, CapReads]
  | other typeName => cases cap <;> simp [stageBudget, CapReads]
  | int value =>
    simp only [stageBudget]
    split
    · next hle =>
      refine iff_of_false (hraises _) ?_
      cases cap with
      | none => simp [CapReads]
      | some cap =>
        rintro ⟨hvalue, hpos, -⟩
        obtain rfl := RawCap.int.inj hvalue
        omega
    · next hpos =>
      split
      · next hlt =>
        refine iff_of_false (hraises _) ?_
        cases cap with
        | none => simp [CapReads]
        | some cap =>
          rintro ⟨hvalue, -, hle⟩
          obtain rfl := RawCap.int.inj hvalue
          omega
      · next hle =>
        cases cap with
        | none => simp [CapReads]
        | some cap =>
          simp only [CapReads, Except.ok.injEq, Option.some.injEq, RawCap.int.injEq]
          constructor
          · rintro rfl
            exact ⟨rfl, by omega, by omega⟩
          · exact fun h => h.1

/-- **The instance is what the arguments say**, each enumeration a member
and each cap within the aggregate. -/
structure Reads (a : Arguments) (c : CongineConfig) : Prop where
  settings : c.toSettings = a.toSettings
  region : a.region.Reads c.region
  failMode : a.failMode.Reads c.failMode
  contractSource : a.contractSource.Reads c.contractSource
  deploymentMode : a.deploymentMode.Reads c.deploymentMode
  contractAdmission : a.contractAdmission.Reads c.contractAdmission
  native : CapReads a.nativeValidationTimeoutMs a.validationTimeoutMs c.nativeValidationTimeoutMs
  semantic : CapReads a.semanticValidationTimeoutMs a.validationTimeoutMs
    c.semanticValidationTimeoutMs

/-- **What construction accepts**: exactly the arguments each of which reads
as its field, with a control plane the policy permits. -/
theorem construct_iff {a : Arguments} {c : CongineConfig} :
    construct checks a = .ok c ↔ Reads a c ∧ Permitted checks a.toSettings := by
  unfold construct
  simp only [bind_eq_ok, normalize_ok_iff, stageBudget_ok_iff]
  constructor
  · rintro ⟨region, hregion, failMode, hfail, source, hsource, mode, hmode, admission, hadmission,
      native, hnative, semantic, hsemantic, ⟨⟩, hvalidate, hc⟩
    obtain rfl := Except.ok.inj hc
    exact ⟨⟨rfl, hregion, hfail, hsource, hmode, hadmission, hnative, hsemantic⟩,
      validate_ok_iff.mp hvalidate⟩
  · rintro ⟨h, hpermitted⟩
    refine ⟨_, h.region, _, h.failMode, _, h.contractSource, _, h.deploymentMode, _,
      h.contractAdmission, _, h.native, _, h.semantic, (), validate_ok_iff.mpr hpermitted, ?_⟩
    rw [← h.settings]
    rfl

/-- The arguments an instance is built of again. -/
def CongineConfig.arguments (c : CongineConfig) : Arguments where
  toSettings := c.toSettings
  region := .member c.region
  nativeValidationTimeoutMs := rawCap c.nativeValidationTimeoutMs
  semanticValidationTimeoutMs := rawCap c.semanticValidationTimeoutMs
  failMode := .member c.failMode
  contractSource := .member c.contractSource
  deploymentMode := .member c.deploymentMode
  contractAdmission := .member c.contractAdmission

omit [Host] in
theorem RawEnum.reads_member {E : Type} [WireEnum E] {e e' : E} :
    (RawEnum.member e).Reads e' ↔ e = e' := by
  simp [RawEnum.Reads]

omit [Host] in
/-- A cap that was read is read again as itself. -/
theorem CapReads.again {raw : RawCap} {aggregateMs : ℤ} {cap : Option ℤ}
    (h : CapReads raw aggregateMs cap) : CapReads (rawCap cap) aggregateMs cap := by
  cases cap with
  | none => rfl
  | some cap => exact ⟨rfl, h.2⟩

omit [Host] in
theorem CapReads.of_rawCap {aggregateMs : ℤ} {given cap : Option ℤ}
    (h : CapReads (rawCap given) aggregateMs cap) : cap = given := by
  cases cap with
  | none =>
    cases given with
    | none => rfl
    | some given => cases h
  | some cap =>
    cases given with
    | none => cases h.1
    | some given => rw [RawCap.int.inj h.1]

omit [Host] in
/-- **What was read is read again**, as itself and as nothing else. -/
theorem Reads.again {a : Arguments} {c : CongineConfig} (h : Reads a c) : Reads c.arguments c where
  settings := rfl
  region := RawEnum.reads_member.mpr rfl
  failMode := RawEnum.reads_member.mpr rfl
  contractSource := RawEnum.reads_member.mpr rfl
  deploymentMode := RawEnum.reads_member.mpr rfl
  contractAdmission := RawEnum.reads_member.mpr rfl
  native := by
    have hnative := h.native.again
    rwa [← h.settings] at hnative
  semantic := by
    have hsemantic := h.semantic.again
    rwa [← h.settings] at hsemantic

/-- **What construction accepts**: exactly the arguments each of which reads
as its field, with a control plane the policy permits. An instance built of
an instance is that instance; and one that is neither on the loopback nor
waived has its credentials and the scheme of an encrypted transport, as the
splitter of URLs finds it. -/
theorem construct_spec (checks : Url.NetlocChecks) (a : Arguments) :
    (∀ c, construct checks a = .ok c ↔ Reads a c ∧ Permitted checks a.toSettings) ∧
    ∀ c, construct checks a = .ok c →
      construct checks c.arguments = .ok c ∧
      (¬ OnLoopback c.baseUrl → Complete c.toSettings ∧
        (c.requireHttps = true → c.allowCleartext = false →
          Url.scheme (Url.clean c.baseUrl.toList) = "https".toList)) := by
  refine ⟨fun c => construct_iff, fun c hc => ?_⟩
  obtain ⟨hreads, hpermitted⟩ := construct_iff.mp hc
  rw [← hreads.settings] at hpermitted
  refine ⟨construct_iff.mpr ⟨hreads.again, hpermitted⟩, fun hremote => ?_⟩
  obtain ⟨hcomplete, htransport⟩ := hpermitted.remote.resolve_left hremote
  refine ⟨hcomplete, fun hrequire hallow => ?_⟩
  obtain ⟨rest, hwritten⟩ := htransport hrequire hallow
  exact Url.scheme_of_lower (by decide) (List.all_eq_true.mp (by decide)) hwritten

/-! ## The environment -/

omit [Host] in
theorem digit?_lt {c : Char} {n : ℕ} (h : Text.digit? c = some n) : n < 10 := by
  obtain ⟨z, hz, rfl⟩ := Option.map_eq_some_iff.mp h
  have := List.find?_some hz
  simp only [decide_eq_true_eq] at this
  omega

omit [Host] in
theorem digits?_lt {cs : List Char} {ds : List ℕ} (h : Text.digits? cs = some ds) :
    ∀ d ∈ ds, d < 10 := by
  induction cs using Text.digits?.induct generalizing ds with
  | case1 => cases h
  | case2 c =>
    obtain ⟨n, hn, rfl⟩ := Option.map_eq_some_iff.mp h
    intro d hd
    rw [List.mem_singleton.mp hd]
    exact digit?_lt hn
  | case3 c d cs hnone =>
    simp only [Text.digits?, hnone] at h
    cases h
  | case4 c cs n hn ih =>
    simp only [Text.digits?, hn, if_true] at h
    obtain ⟨ds', hds', rfl⟩ := Option.map_eq_some_iff.mp h
    exact List.forall_mem_cons.mpr ⟨digit?_lt hn, ih hds'⟩
  | case5 c d cs n hn hne ih =>
    simp only [Text.digits?, hn, hne, if_false] at h
    obtain ⟨ds', hds', rfl⟩ := Option.map_eq_some_iff.mp h
    exact List.forall_mem_cons.mpr ⟨digit?_lt hn, ih hds'⟩

omit [Host] in
theorem natOfDigits_lt {ds : List ℕ} (h : ∀ d ∈ ds, d < 10) :
    Text.natOfDigits ds < 10 ^ ds.length := by
  induction ds using List.reverseRecOn with
  | nil => decide
  | append_singleton ds d ih =>
    obtain ⟨hds, hd⟩ := List.forall_mem_append.mp h
    have hlt := ih hds
    have hlast := hd d (List.mem_singleton_self d)
    simp only [Text.natOfDigits] at hlt ⊢
    rw [List.foldl_append, List.length_append, List.length_singleton, pow_succ]
    simp only [List.foldl_cons, List.foldl_nil]
    omega

omit [Host] in
/-- **What the reader of integers returns can be printed.** -/
theorem printable_of_parseInt {s : String} {i : ℤ} (h : Text.parseInt s = some i) :
    printable (.int i) = true := by
  have hunsigned : ∀ {cs : List Char} {i : ℤ},
      (((Text.digits? cs).bind fun ds =>
          if ds.length ≤ Text.maxIntDigits then some (Text.natOfDigits ds) else none).bind
        fun n => some (n : ℤ)) = some i →
      i.natAbs < 10 ^ Text.maxIntDigits := by
    intro cs i hi
    obtain ⟨n, hn, hi⟩ := Option.bind_eq_some_iff.mp hi
    obtain ⟨ds, hds, hn⟩ := Option.bind_eq_some_iff.mp hn
    split_ifs at hn with hle
    obtain rfl := Option.some.inj hn
    obtain rfl := Option.some.inj hi
    rw [Int.natAbs_natCast]
    exact lt_of_lt_of_le (natOfDigits_lt (digits?_lt hds)) (Nat.pow_le_pow_right (by decide) hle)
  simp only [printable, decide_eq_true_eq]
  unfold Text.parseInt at h
  simp only at h
  split at h
  · obtain ⟨n, hn, rfl⟩ := Option.map_eq_some_iff.mp h
    rw [Int.natAbs_neg]
    exact hunsigned hn
  · obtain ⟨n, hn, rfl⟩ := Option.map_eq_some_iff.mp h
    exact hunsigned hn
  · obtain ⟨n, hn, rfl⟩ := Option.map_eq_some_iff.mp h
    exact hunsigned hn

/-- An integer that can be printed. -/
structure Printable (i : ℤ) : Prop where
  printable : printable (.int i) = true

omit [Host] in
/-- A default has few digits. -/
theorem printable_of_le {i : ℤ} (h : i.natAbs ≤ 10 ^ 8) : Printable i where
  printable := by
    rw [Congine.printable, decide_eq_true_eq]
    exact lt_of_le_of_lt h (Nat.pow_lt_pow_right (by decide) (by decide))

/-- An exception that is neither the configuration error nor allowed for. -/
def Escapes (allowed : Exc → Prop) : Fault → Prop
  | .configuration _ => False
  | .raised exc => ¬ allowed exc

omit [Host] in
theorem Escapes.mono {allowed allowed' : Exc → Prop} (h : ∀ exc, allowed exc → allowed' exc) :
    ∀ fault, Escapes allowed' fault → Escapes allowed fault
  | .configuration _ => id
  | .raised exc => fun hn hexc => hn (h exc hexc)

/-! ## What construction raises -/

variable {allowed : Exc → Prop}

theorem normalize_ensures {E : Type} [WireEnum E] (name : String) (raw : RawEnum E) :
    Ensures (Escapes allowed) (fun _ => True) (normalize name raw) := by
  cases raw with
  | member e => trivial
  | other typeName => exact id
  | text value =>
    simp only [normalize]
    split
    · trivial
    · exact id

theorem printing_of_printable {value : ℤ} (h : Printable value)
    (message : String → Except Fault String) :
    printing value message = message (Host.repr (.int value)) := by
  have hshown : pyStr (.int value) =
      if printable (.int value) then .ok (Host.repr (.int value)) else .error .valueError := by
    rfl
  rw [if_pos h.printable] at hshown
  delta printing
  rw [hshown]

theorem stageBudget_ensures (name : String) {aggregateMs : ℤ} {raw : RawCap}
    (haggregate : Printable aggregateMs) (hcap : ∀ i, raw = .int i → Printable i) :
    Ensures (Escapes allowed) (fun _ => True) (stageBudget name aggregateMs raw) := by
  cases raw with
  | none => trivial
  | other typeName => exact id
  | int value =>
    have hvalue := hcap value rfl
    simp only [stageBudget]
    split
    · rw [printing_of_printable hvalue]
      exact id
    · split
      · rw [printing_of_printable hvalue, printing_of_printable haggregate]
        exact id
      · trivial

theorem validate_ensures (c : Settings) :
    Ensures (Escapes fun exc => exc = .valueError ∧ ¬ Splits checks c.baseUrl) (fun _ => True)
      (c.validate checks) := by
  unfold Settings.validate
  split
  · next hlocal => exact fun h => h ⟨rfl, isLocalBaseUrl_eq_none.mp hlocal⟩
  · trivial
  · split
    · exact id
    · split
      · exact id
      · trivial

/-- **Construction raises the configuration error or none**, where its
integers can be printed and the base URL is split. -/
theorem construct_ensures {a : Arguments} (htimeout : Printable a.validationTimeoutMs)
    (hnative : ∀ i, a.nativeValidationTimeoutMs = .int i → Printable i)
    (hsemantic : ∀ i, a.semanticValidationTimeoutMs = .int i → Printable i) :
    Ensures (Escapes fun exc => exc = .valueError ∧ ¬ Splits checks a.baseUrl) (fun _ => True)
      (construct checks a) := by
  unfold construct
  refine .bind (normalize_ensures _ _) fun _ _ => ?_
  refine .bind (normalize_ensures _ _) fun _ _ => ?_
  refine .bind (normalize_ensures _ _) fun _ _ => ?_
  refine .bind (normalize_ensures _ _) fun _ _ => ?_
  refine .bind (normalize_ensures _ _) fun _ _ => ?_
  refine .bind (stageBudget_ensures _ htimeout hnative) fun _ _ => ?_
  refine .bind (stageBudget_ensures _ htimeout hsemantic) fun _ _ => ?_
  exact .bind (validate_ensures a.toSettings) fun _ _ => trivial

/-! ## What the environment may raise -/

theorem readInt_ensures (name raw : String) :
    Ensures (Escapes allowed) Printable (readInt name raw) := by
  unfold readInt
  split
  · next h => exact ⟨printable_of_parseInt h⟩
  · exact id

theorem envInt_ensures (env : Env) (name : String) (default : ℤ) (h : Printable default) :
    Ensures (Escapes allowed) Printable (envInt env name default) := by
  unfold envInt
  split
  · exact h
  · exact readInt_ensures name _

theorem envOptionalInt_ensures (env : Env) (name : String) :
    Ensures (Escapes allowed) (fun cap => ∀ i, cap = some i → Printable i)
      (envOptionalInt env name) := by
  unfold envOptionalInt
  split
  · exact fun i hi => by cases hi
  · split
    · exact id
    · exact (readInt_ensures name _).map fun i hi j hj => Option.some.inj hj ▸ hi

theorem envBool_ensures (env : Env) (name : String) (default : Bool) :
    Ensures (Escapes allowed) (fun _ => True) (envBool env name default) := by
  unfold envBool
  split
  · trivial
  · simp only
    split
    · trivial
    · split
      · trivial
      · exact id

omit [Host] in
theorem envOptionalPath_ensures (env : Env) (name : String) :
    Ensures (Escapes allowed) (fun _ => True) (envOptionalPath env name) := by
  unfold envOptionalPath
  split
  · trivial
  · split
    · exact id
    · trivial

theorem envFloat_ensures (floats : String → Bool) (env : Env) (name : String) :
    Ensures (Escapes allowed) (fun _ => True) (envFloat floats env name) := by
  unfold envFloat
  split
  · trivial
  · split
    · trivial
    · exact id

theorem envEnum_ensures {E : Type} [WireEnum E] (env : Env) (name default : String)
    (namesAccepted : Bool) :
    Ensures (Escapes allowed) (fun _ => True) (envEnum E env name default namesAccepted) := by
  unfold envEnum
  simp only
  split
  · trivial
  · exact id

/-- The URL comes of the environment, or is one that is split. -/
theorem baseUrlFromEnv_ensures (checks : Url.NetlocChecks) (env : Env) (region : Region) :
    Ensures (Escapes allowed) (fun url => ¬ Splits checks url → env "CONGINE_BASE_URL" = some url)
      (baseUrlFromEnv env region) := by
  have hfallback : Ensures (Escapes allowed)
      (fun url => ¬ Splits checks url → env "CONGINE_BASE_URL" = some url)
      (baseUrlFromEnv.fallback env region) := by
    unfold baseUrlFromEnv.fallback
    split
    · exact fun h => absurd rfl h
    · exact id
  unfold baseUrlFromEnv
  split
  · next explicit henv =>
    split
    · exact fun _ => henv
    · exact hfallback
  · exact hfallback

/-! ### The variables in groups

What the other variables say is in no message of a later check. -/

section

variable {β : Type} {P : β → Prop}

theorem envInt_passes (env : Env) (name : String) {default : ℤ} (h : default.natAbs ≤ 10 ^ 8) :
    Ensures (Escapes allowed) (fun _ => True) (envInt env name default) :=
  (envInt_ensures env name default (printable_of_le h)).mono fun _ _ => trivial

theorem cacheReads_ensures (env : Env) {k : ℤ → ℤ → Bool → ℤ → Except Fault β}
    (h : ∀ capacity ttl enabled interval,
      Ensures (Escapes allowed) P (k capacity ttl enabled interval)) :
    Ensures (Escapes allowed) P (do
      let cacheCapacity ← envInt env "CONGINE_CACHE_CAPACITY" 500
      let cacheTtlSeconds ← envInt env "CONGINE_CACHE_TTL" 300
      let syncEnabled ← envBool env "CONGINE_SYNC_ENABLED" false
      let syncIntervalSeconds ← envInt env "CONGINE_SYNC_INTERVAL" 300
      k cacheCapacity cacheTtlSeconds syncEnabled syncIntervalSeconds) := by
  refine .bind (envInt_passes env _ (by decide)) fun _ _ => ?_
  refine .bind (envInt_passes env _ (by decide)) fun _ _ => ?_
  refine .bind (envBool_ensures env _ _) fun _ _ => ?_
  exact .bind (envInt_passes env _ (by decide)) fun _ _ => h _ _ _ _

theorem semanticReads_ensures (env : Env) {k : Bool → ℤ → Bool → Except Fault β}
    (h : ∀ enabled breaches formats, Ensures (Escapes allowed) P (k enabled breaches formats)) :
    Ensures (Escapes allowed) P (do
      let semanticValidationEnabled ← envBool env "CONGINE_SEMANTIC_VALIDATION" false
      let semanticMaxBreaches ← envInt env "CONGINE_SEMANTIC_MAX_BREACHES" 100
      let semanticFormatChecking ← envBool env "CONGINE_SEMANTIC_FORMAT_CHECKING" false
      k semanticValidationEnabled semanticMaxBreaches semanticFormatChecking) := by
  refine .bind (envBool_ensures env _ _) fun _ _ => ?_
  refine .bind (envInt_passes env _ (by decide)) fun _ _ => ?_
  exact .bind (envBool_ensures env _ _) fun _ _ => h _ _ _

theorem poolReads_ensures (floats : String → Bool) (env : Env) {k : ℤ → ℤ → ℤ → Except Fault β}
    (h : ∀ samples workers pending, Ensures (Escapes allowed) P (k samples workers pending)) :
    Ensures (Escapes allowed) P (do
      envFloat floats env "CONGINE_DRIFT_THRESHOLD"
      let driftSampleLimit ← envInt env "CONGINE_DRIFT_SAMPLE_LIMIT" 500
      let validationMaxWorkers ← envInt env "CONGINE_VALIDATION_WORKERS" 10
      let validationMaxPending ← envInt env "CONGINE_VALIDATION_PENDING" 10
      k driftSampleLimit validationMaxWorkers validationMaxPending) := by
  refine .bind (envFloat_ensures floats env _) fun _ _ => ?_
  refine .bind (envInt_passes env _ (by decide)) fun _ _ => ?_
  refine .bind (envInt_passes env _ (by decide)) fun _ _ => ?_
  exact .bind (envInt_passes env _ (by decide)) fun _ _ => h _ _ _

theorem contractReads_ensures (floats : String → Bool) (env : Env)
    {k : Option String → Option String → Except Fault β}
    (h : ∀ dir localDir, Ensures (Escapes allowed) P (k dir localDir)) :
    Ensures (Escapes allowed) P (do
      let contractsDir ← envOptionalPath env "CONGINE_CONTRACTS_DIR"
      let localContractsDir ← envOptionalPath env "CONGINE_LOCAL_CONTRACTS_DIR"
      envFloat floats env "CONGINE_CACHE_SWEEP_INTERVAL_SECONDS"
      envFloat floats env "CONGINE_CONTROL_PLANE_HTTP_TIMEOUT"
      k contractsDir localContractsDir) := by
  refine .bind (envOptionalPath_ensures env _) fun _ _ => ?_
  refine .bind (envOptionalPath_ensures env _) fun _ _ => ?_
  refine .bind (envFloat_ensures floats env _) fun _ _ => ?_
  exact .bind (envFloat_ensures floats env _) fun _ _ => h _ _

theorem telemetryReads_ensures (floats : String → Bool) (env : Env)
    {k : Bool → ℤ → ℤ → ℤ → Except Fault β}
    (h : ∀ enabled size batch retries,
      Ensures (Escapes allowed) P (k enabled size batch retries)) :
    Ensures (Escapes allowed) P (do
      let telemetryEnabled ← envBool env "CONGINE_TELEMETRY_ENABLED" true
      let telemetryQueueSize ← envInt env "CONGINE_TELEMETRY_QUEUE_SIZE" 10000
      let telemetryBatchSize ← envInt env "CONGINE_TELEMETRY_BATCH_SIZE" 100
      let telemetryMaxRetries ← envInt env "CONGINE_TELEMETRY_MAX_RETRIES" 4
      envFloat floats env "CONGINE_TELEMETRY_BACKOFF_BASE"
      envFloat floats env "CONGINE_TELEMETRY_BACKOFF_MAX"
      k telemetryEnabled telemetryQueueSize telemetryBatchSize telemetryMaxRetries) := by
  refine .bind (envBool_ensures env _ _) fun _ _ => ?_
  refine .bind (envInt_passes env _ (by decide)) fun _ _ => ?_
  refine .bind (envInt_passes env _ (by decide)) fun _ _ => ?_
  refine .bind (envInt_passes env _ (by decide)) fun _ _ => ?_
  refine .bind (envFloat_ensures floats env _) fun _ _ => ?_
  exact .bind (envFloat_ensures floats env _) fun _ _ => h _ _ _ _

theorem exposureReads_ensures (floats : String → Bool) (env : Env)
    {k : Bool → Bool → Bool → ℤ → Except Fault β}
    (h : ∀ https cleartext redaction failures,
      Ensures (Escapes allowed) P (k https cleartext redaction failures)) :
    Ensures (Escapes allowed) P (do
      envFloat floats env "CONGINE_SNAPSHOT_LOCK_TIMEOUT"
      let requireHttps ← envBool env "CONGINE_REQUIRE_HTTPS" true
      let allowCleartext ← envBool env "CONGINE_ALLOW_CLEARTEXT" false
      let logRedactionEnabled ← envBool env "CONGINE_LOG_REDACTION" true
      let breakerFailureThreshold ← envInt env "CONGINE_BREAKER_FAILURE_THRESHOLD" 5
      envFloat floats env "CONGINE_BREAKER_COOLDOWN_SECONDS"
      k requireHttps allowCleartext logRedactionEnabled breakerFailureThreshold) := by
  refine .bind (envFloat_ensures floats env _) fun _ _ => ?_
  refine .bind (envBool_ensures env _ _) fun _ _ => ?_
  refine .bind (envBool_ensures env _ _) fun _ _ => ?_
  refine .bind (envBool_ensures env _ _) fun _ _ => ?_
  refine .bind (envInt_passes env _ (by decide)) fun _ _ => ?_
  exact .bind (envFloat_ensures floats env _) fun _ _ => h _ _ _ _

theorem limitReads_ensures (env : Env) {k : ℤ → ℤ → ℤ → ℤ → ℤ → ℤ → Bool → Except Fault β}
    (h : ∀ payload schema files fileBytes buffer response start,
      Ensures (Escapes allowed) P (k payload schema files fileBytes buffer response start)) :
    Ensures (Escapes allowed) P (do
      let maxPayloadBytes ← envInt env "CONGINE_MAX_PAYLOAD_BYTES" defaultMaxBytes
      let maxSchemaBytes ← envInt env "CONGINE_MAX_SCHEMA_BYTES" defaultMaxBytes
      let maxContractFiles ← envInt env "CONGINE_MAX_CONTRACT_FILES" 1000
      let maxContractFileBytes ← envInt env "CONGINE_MAX_CONTRACT_FILE_BYTES" defaultMaxBytes
      let maxStreamBufferChars ← envInt env "CONGINE_MAX_STREAM_BUFFER_CHARS" 500000
      let maxHttpResponseBytes ← envInt env "CONGINE_MAX_HTTP_RESPONSE_BYTES" 10485760
      let startBackgroundServices ← envBool env "CONGINE_START_BACKGROUND_SERVICES" true
      k maxPayloadBytes maxSchemaBytes maxContractFiles maxContractFileBytes maxStreamBufferChars
        maxHttpResponseBytes startBackgroundServices) := by
  refine .bind (envInt_passes env _ (by decide)) fun _ _ => ?_
  refine .bind (envInt_passes env _ (by decide)) fun _ _ => ?_
  refine .bind (envInt_passes env _ (by decide)) fun _ _ => ?_
  refine .bind (envInt_passes env _ (by decide)) fun _ _ => ?_
  refine .bind (envInt_passes env _ (by decide)) fun _ _ => ?_
  refine .bind (envInt_passes env _ (by decide)) fun _ _ => ?_
  exact .bind (envBool_ensures env _ _) fun _ _ => h _ _ _ _ _ _ _

end

/-- **Reading the settings** raises the configuration error or none, and the
integers of the budgets can be printed. -/
theorem readSettings_ensures (checks : Url.NetlocChecks) (floats : String → Bool) (env : Env)
    (region : Region) :
    Ensures (Escapes allowed) (fun (out : Settings × Option ℤ × Option ℤ) =>
      (¬ Splits checks out.1.baseUrl → env "CONGINE_BASE_URL" = some out.1.baseUrl) ∧
        Printable out.1.validationTimeoutMs ∧ (∀ i, out.2.1 = some i → Printable i) ∧
          ∀ i, out.2.2 = some i → Printable i)
      (readSettings floats env region) := by
  unfold readSettings
  refine .bind (baseUrlFromEnv_ensures checks env region) fun _ hurl => ?_
  refine .bind (envInt_ensures env _ 100 (printable_of_le (by decide))) fun timeout htimeout => ?_
  refine .bind (envOptionalInt_ensures env _) fun native hnative => ?_
  refine .bind (envOptionalInt_ensures env _) fun semantic hsemantic => ?_
  refine cacheReads_ensures env fun _ _ _ _ => ?_
  refine semanticReads_ensures env fun _ _ _ => ?_
  refine poolReads_ensures floats env fun _ _ _ => ?_
  refine contractReads_ensures floats env fun _ _ => ?_
  refine telemetryReads_ensures floats env fun _ _ _ _ => ?_
  refine exposureReads_ensures floats env fun _ _ _ _ => ?_
  refine limitReads_ensures env fun _ _ _ _ _ _ _ => ?_
  exact ⟨hurl, htimeout, hnative, hsemantic⟩

/-- The arguments the environment spells: a text for each enumeration, as it
stands there. -/
def spelled (env : Env) (settings : Settings) (native semantic : Option ℤ) : Arguments where
  toSettings := settings
  region := .text ((env "CONGINE_REGION").getD "us")
  nativeValidationTimeoutMs := rawCap native
  semanticValidationTimeoutMs := rawCap semantic
  failMode := .text ((env "CONGINE_FAIL_MODE").getD "degrade")
  contractSource := .text ((env "CONGINE_CONTRACT_SOURCE").getD "http")
  deploymentMode := .text ((env "CONGINE_DEPLOYMENT_MODE").getD "single_tenant")
  contractAdmission := .text ((env "CONGINE_CONTRACT_ADMISSION").getD "strict")

theorem envEnum_ok_iff {E : Type} [WireEnum E] {env : Env} {name default : String}
    {namesAccepted : Bool} {e : E} :
    envEnum E env name default namesAccepted = .ok e ↔
      (RawEnum.text ((env name).getD default) : RawEnum E).Reads e := by
  simp only [envEnum, RawEnum.Reads, reduceCtorEq, RawEnum.text.injEq, false_or, exists_eq_left']
  cases memberOf E ((env name).getD default) with
  | none => simp
  | some e' => simp

theorem fromEnv_ok_iff {floats : String → Bool} {env : Env} {c : CongineConfig} :
    fromEnv checks floats env = .ok c ↔
      ∃ region settings native semantic,
        (RawEnum.text ((env "CONGINE_REGION").getD "us")).Reads region ∧
        readSettings floats env region = .ok (settings, native, semantic) ∧
        construct checks (spelled env settings native semantic) = .ok c := by
  unfold fromEnv
  simp only [bind_eq_ok, deploymentModeFromEnv, envEnum_ok_iff, Prod.exists]
  constructor
  · rintro ⟨region, hregion, failMode, hfail, source, hsource, admission, hadmission, mode, hmode,
      settings, native, semantic, hread, hconstruct⟩
    refine ⟨region, settings, native, semantic, hregion, hread, ?_⟩
    obtain ⟨h, hpermitted⟩ := construct_iff.mp hconstruct
    obtain rfl := RawEnum.reads_member.mp h.region
    obtain rfl := RawEnum.reads_member.mp h.failMode
    obtain rfl := RawEnum.reads_member.mp h.contractSource
    obtain rfl := RawEnum.reads_member.mp h.deploymentMode
    obtain rfl := RawEnum.reads_member.mp h.contractAdmission
    exact construct_iff.mpr
      ⟨⟨h.settings, hregion, hfail, hsource, hmode, hadmission, h.native, h.semantic⟩, hpermitted⟩
  · rintro ⟨region, settings, native, semantic, hregion, hread, hconstruct⟩
    obtain ⟨h, hpermitted⟩ := construct_iff.mp hconstruct
    have hsame : c.region = region := RawEnum.reads_functional h.region hregion
    refine ⟨region, hregion, _, h.failMode, _, h.contractSource, _, h.contractAdmission, _,
      h.deploymentMode, settings, native, semantic, hread, construct_iff.mpr ⟨?_, hpermitted⟩⟩
    exact {
      settings := h.settings
      region := RawEnum.reads_member.mpr hsame.symm
      failMode := RawEnum.reads_member.mpr rfl
      contractSource := RawEnum.reads_member.mpr rfl
      deploymentMode := RawEnum.reads_member.mpr rfl
      contractAdmission := RawEnum.reads_member.mpr rfl
      native := h.native
      semantic := h.semantic }

theorem fromEnv_ensures (floats : String → Bool) (env : Env) :
    Ensures (Escapes fun exc => exc = .valueError ∧
        ∃ url, env "CONGINE_BASE_URL" = some url ∧ ¬ Splits checks url)
      (fun _ => True) (fromEnv checks floats env) := by
  unfold fromEnv
  refine .bind (envEnum_ensures env _ _ _) fun region _ => ?_
  refine .bind (envEnum_ensures env _ _ _) fun _ _ => ?_
  refine .bind (envEnum_ensures env _ _ _) fun _ _ => ?_
  refine .bind (envEnum_ensures env _ _ _) fun _ _ => ?_
  refine .bind (envEnum_ensures env _ _ _) fun _ _ => ?_
  refine .bind (readSettings_ensures checks floats env region) fun out hout => ?_
  obtain ⟨settings, native, semantic⟩ := out
  obtain ⟨hurl, htimeout, hnative, hsemantic⟩ := hout
  have hcap : ∀ {cap : Option ℤ}, (∀ i, cap = some i → Printable i) →
      ∀ i, rawCap cap = .int i → Printable i := by
    intro cap hcap i hi
    cases cap with
    | none => cases hi
    | some j => exact hcap i (congrArg some (RawCap.int.inj hi))
  refine Ensures.mono_raises
    (construct_ensures htimeout (hcap hnative) (hcap hsemantic)) (Escapes.mono ?_)
  rintro exc ⟨rfl, hsplits⟩
  exact ⟨rfl, _, hurl hsplits, hsplits⟩

/-- **The environment is another way to hand over arguments**: what is made
of it is what construction makes of the texts that stand there, and it
raises the configuration error or none, but where the base URL of the
environment is one the splitter of URLs raises at. -/
theorem fromEnv_spec (checks : Url.NetlocChecks) (floats : String → Bool) (env : Env) :
    (∀ c, fromEnv checks floats env = .ok c ↔
      ∃ region settings native semantic,
        (RawEnum.text ((env "CONGINE_REGION").getD "us")).Reads region ∧
        readSettings floats env region = .ok (settings, native, semantic) ∧
        construct checks (spelled env settings native semantic) = .ok c) ∧
    ∀ exc, fromEnv checks floats env = .error (.raised exc) →
      exc = .valueError ∧ ∃ url, env "CONGINE_BASE_URL" = some url ∧ ¬ Splits checks url :=
  ⟨fun _ => fromEnv_ok_iff, fun _ h => by_contra ((fromEnv_ensures floats env).not_raised h)⟩

end Configuration

end Congine
