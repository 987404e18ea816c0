import Congine.Common.Runs
import Congine.Common.Text
import Congine.Infrastructure.HttpContractRepository
import Mathlib.Logic.Function.Basic
/-!
# The scope of a snapshot

A repository names its snapshot by a digest of the control plane's URL,
the project and the tenant, joined by a separator that each of the three
may contain. What the joining keeps of them is their segments, so two
scopes share a snapshot exactly when their segments agree and their
directories are one.

The digest is a parameter, taken to be injective. Paths are POSIX paths:
a path names the file of its last component in the directory the rest
leads to, and which directory that is is an input.
-/

namespace Congine

open Text

/-! ## The path -/

/-- The configuration a snapshot path is made from. -/
structure CongineConfig where
  baseUrl : String
  projectId : Option String
  tenantId : Option String
  snapshotDir : Option String := none

/-- The part of the environment `_default_snapshot_dir` reads. -/
structure Environment where
  xdgCacheHome : Option String := none
  /-- `os.path.expanduser("~")`. -/
  home : String

/-- `value or default` of an optional string. -/
def pyOr (value : Option String) (default : String) : String :=
  match value with
  | none => default
  | some value => if value = "" then default else value

/-- `os.path.join` of two components. -/
def osPathJoin (path component : String) : String :=
  if startsWith "/" component then component
  else if path = "" ∨ path.toList.getLast? = some '/' then path ++ component
  else path ++ "/" ++ component

def defaultSnapshotDir (environment : Environment) : String :=
  let base := pyOr environment.xdgCacheHome (osPathJoin environment.home ".cache")
  osPathJoin (osPathJoin base "congine") "snapshots"

/-- `_scope_key`, where the digest stands for the hash, its hexadecimal form
and the cut to sixteen digits. -/
def scopeKey (digest : String → String) (config : CongineConfig) : String :=
  digest (join '|' [pyOr (some config.baseUrl) "", pyOr config.projectId "",
    pyOr config.tenantId ""])

/-- A repository: its configuration, and the environment it was constructed in. -/
structure HttpContractRepository where
  config : CongineConfig
  environment : Environment

/-- A control plane, a project and a tenant. -/
abbrev Scope := String × Option String × Option String

namespace HttpContractRepository

def scope (repository : HttpContractRepository) : Scope :=
  (repository.config.baseUrl, repository.config.projectId, repository.config.tenantId)

def snapshotDir (repository : HttpContractRepository) : String :=
  pyOr repository.config.snapshotDir (defaultSnapshotDir repository.environment)

def snapshotPath (digest : String → String) (repository : HttpContractRepository) : String :=
  osPathJoin repository.snapshotDir ("snapshot_" ++ scopeKey digest repository.config ++ ".json")

/-- What the joined scope consists of: the segments of its three parts, one
after the other. -/
def scopeSegments (repository : HttpContractRepository) : List String :=
  split '|' repository.config.baseUrl ++ split '|' (pyOr repository.config.projectId "") ++
    split '|' (pyOr repository.config.tenantId "")

end HttpContractRepository

theorem pyOr_empty (value : String) : pyOr (some value) "" = value := by
  rcases Decidable.em (value = "") with rfl | h
  · rfl
  · exact if_neg h

/-- Below a directory, the directory's part of a path is the directory's alone. -/
theorem osPathJoin_eq {path component : String} (h : startsWith "/" component = false) :
    osPathJoin path component = osPathJoin path "" ++ component := by
  have hempty : startsWith "/" "" = false := by decide
  unfold osPathJoin
  rw [h, hempty]
  split_ifs <;> simp [String.append_assoc]

theorem osPathJoin_empty_last (path : String) :
    osPathJoin path "" = "" ∨ (osPathJoin path "").toList.getLast? = some '/' := by
  have hempty : startsWith "/" "" = false := by decide
  unfold osPathJoin
  rw [hempty, if_neg Bool.false_ne_true]
  split_ifs with h
  · simpa using h
  · exact Or.inr (by simp)

/-! ## Where the path leads -/

variable {Dir : Type*} {R : Type*}

/-- The file a path names: its last component, in the directory the rest leads to. -/
def place (resolve : String → Dir) (path : String) : Dir × String :=
  (resolve (upToLast '/' path), afterLast '/' path)

/-- A digest is part of a file name: no separator of paths stands in it. -/
def FileName (digest : String → String) : Prop := ∀ raw, '/' ∉ (digest raw).toList

section Place

variable {digest : String → String} (resolve : String → Dir)

theorem snapshotName_no_slash (hname : FileName digest) (config : CongineConfig) :
    '/' ∉ ("snapshot_" ++ scopeKey digest config ++ ".json").toList := by
  have hkey : '/' ∉ (scopeKey digest config).toList := hname _
  simp only [String.toList_append, List.mem_append, not_or]
  exact ⟨⟨by decide, hkey⟩, by decide⟩

theorem place_snapshotPath (hname : FileName digest) (repository : HttpContractRepository) :
    place resolve (repository.snapshotPath digest) =
      (resolve (osPathJoin repository.snapshotDir ""),
        "snapshot_" ++ scopeKey digest repository.config ++ ".json") := by
  have hslash := snapshotName_no_slash hname repository.config
  have hrelative : startsWith "/"
      ("snapshot_" ++ scopeKey digest repository.config ++ ".json") = false := by
    rw [Bool.eq_false_iff, Ne, startsWith_iff]
    intro hstart
    exact hslash (hstart.subset (by decide))
  rw [HttpContractRepository.snapshotPath, osPathJoin_eq hrelative, place,
    (toLast_append hslash (osPathJoin_empty_last _)).1,
    (toLast_append hslash (osPathJoin_empty_last _)).2]

/-- **The key keeps the segments of a scope**, and nothing else of it. -/
theorem scopeKey_eq_iff (hinj : Function.Injective digest)
    {repository repository' : HttpContractRepository} :
    scopeKey digest repository.config = scopeKey digest repository'.config ↔
      repository.scopeSegments = repository'.scopeSegments := by
  rw [scopeKey, scopeKey, hinj.eq_iff, join_eq_iff '|' (List.cons_ne_nil _ _)
    (List.cons_ne_nil _ _)]
  simp [HttpContractRepository.scopeSegments, pyOr_empty]

/-- **Two repositories share a file** exactly where their scopes have the
same segments and their directories are one. -/
theorem place_eq_iff (hinj : Function.Injective digest) (hname : FileName digest)
    {repository repository' : HttpContractRepository} :
    place resolve (repository.snapshotPath digest) =
        place resolve (repository'.snapshotPath digest) ↔
      resolve (osPathJoin repository.snapshotDir "") =
          resolve (osPathJoin repository'.snapshotDir "") ∧
        repository.scopeSegments = repository'.scopeSegments := by
  rw [place_snapshotPath resolve hname, place_snapshotPath resolve hname, Prod.mk.injEq,
    ← scopeKey_eq_iff hinj]
  simp [← String.toList_inj]

end Place

/-- A project and a tenant without the separator are read back off the
segments, and the URL is what stands before them. -/
theorem scopeSegments_injective {repository repository' : HttpContractRepository}
    (hproject : '|' ∉ (pyOr repository.config.projectId "").toList)
    (hproject' : '|' ∉ (pyOr repository'.config.projectId "").toList)
    (htenant : '|' ∉ (pyOr repository.config.tenantId "").toList)
    (htenant' : '|' ∉ (pyOr repository'.config.tenantId "").toList)
    (h : repository.scopeSegments = repository'.scopeSegments) :
    repository.config.baseUrl = repository'.config.baseUrl ∧
      pyOr repository.config.projectId "" = pyOr repository'.config.projectId "" ∧
      pyOr repository.config.tenantId "" = pyOr repository'.config.tenantId "" := by
  unfold HttpContractRepository.scopeSegments at h
  rw [split_eq_singleton hproject, split_eq_singleton hproject', split_eq_singleton htenant,
    split_eq_singleton htenant'] at h
  obtain ⟨hfront, ht⟩ := List.append_inj' h rfl
  obtain ⟨hurl, hp⟩ := List.append_inj' hfront rfl
  exact ⟨split_injective '|' hurl, (List.singleton_inj.mp hp), (List.singleton_inj.mp ht)⟩

/-! ## Saving and loading -/

/-- A snapshot file, and the scope it was last saved in. -/
structure SavedSnapshot where
  file : SnapshotFile
  /-- `none` while no repository of the run has saved it. -/
  savedIn : Option Scope

abbrev Disk (Dir : Type*) := Dir × String → SavedSnapshot

/-- What the repositories do to the disk. -/
inductive DiskEvent (R : Type*) where
  | save (r : R) (contracts : List Json) (fetchedAt : String) (outcome : SaveOutcome)
  | load (r : R)

section Runs

variable [DecidableEq Dir] (digest : String → String) (resolve : String → Dir)
variable (repository : R → HttpContractRepository)

/-- The file of a repository. -/
def fileOf (r : R) : Dir × String := place resolve ((repository r).snapshotPath digest)

def diskStep : DiskEvent R → Disk Dir → Disk Dir
  | .load _, disk => disk
  | .save r contracts fetchedAt outcome, disk =>
      let file := fileOf digest resolve repository r
      match saveSnapshot contracts fetchedAt outcome (disk file).file with
      | .error _ => disk
      | .ok written =>
          Function.update disk file
            { file := written
              savedIn := if outcome = .written then some (repository r).scope
                else (disk file).savedIn }

/-- A load returns nothing that was saved in another scope. -/
def Isolated : DiskEvent R → Disk Dir → Prop
  | .save .., _ => True
  | .load r, disk => ∀ contracts scope,
      loadSnapshot (disk (fileOf digest resolve repository r)).file = .ok (some contracts) →
      (disk (fileOf digest resolve repository r)).savedIn = some scope →
        scope = (repository r).scope

/-- Every file is its own repository's: what was saved there was saved in its scope. -/
def OwnFiles (disk : Disk Dir) : Prop :=
  ∀ r scope, (disk (fileOf digest resolve repository r)).savedIn = some scope →
    scope = (repository r).scope

variable {digest resolve repository}

theorem diskStep_ownFiles
    (hsep : ∀ r r', fileOf digest resolve repository r = fileOf digest resolve repository r' →
      (repository r).scope = (repository r').scope)
    (e : DiskEvent R) (disk : Disk Dir) (h : OwnFiles digest resolve repository disk) :
    OwnFiles digest resolve repository (diskStep digest resolve repository e disk) := by
  cases e with
  | save r contracts fetchedAt outcome =>
    intro r' scope hsaved
    unfold diskStep at hsaved
    cases hsave : saveSnapshot contracts fetchedAt outcome
        (disk (fileOf digest resolve repository r)).file with
    | error exc =>
      simp only [hsave] at hsaved
      exact h r' scope hsaved
    | ok written =>
      simp only [hsave] at hsaved
      by_cases hfile : fileOf digest resolve repository r' = fileOf digest resolve repository r
      · rw [hfile, Function.update_self] at hsaved
        split_ifs at hsaved
        · rw [← Option.some.inj hsaved]
          exact hsep r r' hfile.symm
        · rw [h r scope hsaved]
          exact hsep r r' hfile.symm
      · rw [Function.update_of_ne hfile] at hsaved
        exact h r' scope hsaved
  | load r => exact h

omit [DecidableEq Dir] in
theorem OwnFiles.isolated {disk : Disk Dir} (h : OwnFiles digest resolve repository disk)
    (e : DiskEvent R) : Isolated digest resolve repository e disk := by
  cases e with
  | save r contracts fetchedAt outcome => trivial
  | load r =>
    intro contracts scope _ hsaved
    exact h r scope hsaved

/-- Where files are apart as scopes are, every load of every run is isolated. -/
theorem isolated_of_apart
    (hsep : ∀ r r', fileOf digest resolve repository r = fileOf digest resolve repository r' →
      (repository r).scope = (repository r').scope)
    {disk : Disk Dir} (hdisk : ∀ file, (disk file).savedIn = none) (es : List (DiskEvent R)) :
    Along (diskStep digest resolve repository) (Isolated digest resolve repository) es disk := by
  have hown : OwnFiles digest resolve repository disk := by
    intro r scope hsaved
    rw [hdisk] at hsaved
    cases hsaved
  exact (along_of_kept (diskStep_ownFiles hsep) (fun e _ h => h.isolated e) hown es).2

/-- A load returns what was saved in the same file just before, so it is
isolated only within one scope. -/
theorem scope_eq_of_isolated {r r' : R}
    (hfile : fileOf digest resolve repository r = fileOf digest resolve repository r')
    {contracts : List Json} (hne : contracts ≠ []) (hobj : ∀ c ∈ contracts, c.isObj = true)
    {fetchedAt : String} {disk : Disk Dir}
    (h : Along (diskStep digest resolve repository) (Isolated digest resolve repository)
      [.save r contracts fetchedAt .written, .load r'] disk) :
    (repository r).scope = (repository r').scope := by
  have hload := h.2.1 contracts (repository r).scope
  rw [← hfile] at hload
  simp only [diskStep, saveSnapshot, Function.update_self, if_true] at hload
  exact hload (loadSnapshot_envelope hne hobj fetchedAt) trivial

/-- **Snapshots are isolated exactly where scopes with the same segments
have different directories.** Isolated: different scopes have different
paths, and over every run of saves and loads no load returns what another
scope saved. -/
theorem snapshots_isolated_iff (hinj : Function.Injective digest) (hname : FileName digest) :
    ((∀ r r', (repository r).scope ≠ (repository r').scope →
        (repository r).snapshotPath digest ≠ (repository r').snapshotPath digest) ∧
      ∀ disk : Disk Dir, (∀ file, (disk file).savedIn = none) → ∀ es,
        Along (diskStep digest resolve repository) (Isolated digest resolve repository) es disk) ↔
      ∀ r r', (repository r).scope ≠ (repository r').scope →
        (repository r).scopeSegments = (repository r').scopeSegments →
          resolve (osPathJoin (repository r).snapshotDir "") ≠
            resolve (osPathJoin (repository r').snapshotDir "") := by
  constructor
  · rintro ⟨-, hruns⟩ r r' hscope hsegments hdir
    have hfile : fileOf digest resolve repository r = fileOf digest resolve repository r' :=
      (place_eq_iff resolve hinj hname).mpr ⟨hdir, hsegments⟩
    have hrun := hruns (fun _ => ⟨SnapshotFile.absent, none⟩) (fun _ => rfl)
      [.save r [.obj []] "" .written, .load r']
    exact hscope (scope_eq_of_isolated hfile (by simp) (by simp [Json.isObj]) hrun)
  · intro h
    have hsep : ∀ r r', fileOf digest resolve repository r = fileOf digest resolve repository r' →
        (repository r).scope = (repository r').scope := by
      intro r r' hfile
      obtain ⟨hdir, hsegments⟩ := (place_eq_iff resolve hinj hname).mp hfile
      by_contra hscope
      exact h r r' hscope hsegments hdir
    refine ⟨fun r r' hscope hpath => hscope (hsep r r' ?_), fun disk hdisk es =>
      isolated_of_apart hsep hdisk es⟩
    rw [fileOf, fileOf, hpath]

end Runs

/-! ## Tenants of one project

A digest that agrees with the program's on the scopes below. Any other
text it writes out in pairs of characters, none of them a separator of
paths. -/

def knownDigests : List (String × String) :=
  [("https://cp.test|proj|tenant-A", "003355605f5e2333"),
    ("https://cp.test|proj|tenant-B", "66195533fa51d4d6"),
    ("https://cp.test|a|b|c", "64c1f089f0f5470c")]

def escape (c : Char) : List Char := if c = '/' then ['x', 'x'] else ['y', c]

def sampleDigest (raw : String) : String :=
  (knownDigests.lookup raw).getD (String.ofList (raw.toList.flatMap escape))

theorem flatMap_escape_injective : Function.Injective fun cs : List Char => cs.flatMap escape := by
  intro cs
  induction cs with
  | nil =>
    intro ds h
    rcases ds with _ | ⟨d, ds⟩
    · rfl
    · simp only [List.flatMap_nil, List.flatMap_cons, escape] at h
      split_ifs at h <;> cases h
  | cons c cs ih =>
    intro ds h
    rcases ds with _ | ⟨d, ds⟩
    · simp only [List.flatMap_nil, List.flatMap_cons, escape] at h
      split_ifs at h <;> cases h
    · simp only [List.flatMap_cons, escape] at h
      have htail : cs.flatMap escape = ds.flatMap escape := by
        split_ifs at h <;> simp_all
      rw [ih htail]
      split_ifs at h <;> simp_all

/-- What is written out does not begin as a digest does. -/
theorem known_ne_escaped : ∀ p ∈ knownDigests, ∀ cs : List Char,
    p.2 ≠ String.ofList (cs.flatMap escape) := by
  intro p hp cs h
  have hdigit : ∃ c rest, p.2.toList = c :: rest ∧ c ≠ 'x' ∧ c ≠ 'y' := by
    have hall : ∀ q ∈ knownDigests, q.2.toList.head?.any fun c => c ≠ 'x' ∧ c ≠ 'y' := by decide
    have hq := hall p hp
    rcases hlist : p.2.toList with _ | ⟨c, rest⟩
    · simp [hlist] at hq
    · exact ⟨c, rest, rfl, by simpa [hlist] using hq⟩
  obtain ⟨c, rest, hlist, hx, hy⟩ := hdigit
  rw [h, String.toList_ofList] at hlist
  rcases cs with _ | ⟨d, cs⟩
  · cases hlist
  · simp only [List.flatMap_cons, escape] at hlist
    split_ifs at hlist
    · exact hx (List.cons.inj hlist).1.symm
    · exact hy (List.cons.inj hlist).1.symm

theorem sampleDigest_injective : Function.Injective sampleDigest := by
  intro raw raw' h
  unfold sampleDigest at h
  have hpair : ∀ p ∈ knownDigests, ∀ q ∈ knownDigests, p.2 = q.2 → p.1 = q.1 := by decide
  rcases hraw : knownDigests.lookup raw with _ | d <;>
    rcases hraw' : knownDigests.lookup raw' with _ | d' <;>
    simp only [hraw, hraw', Option.getD_none, Option.getD_some] at h
  · exact String.toList_inj.mp (flatMap_escape_injective (String.ofList_injective h))
  · exact absurd h.symm (known_ne_escaped _ (Json.mem_of_lookup hraw') raw.toList)
  · exact absurd h (known_ne_escaped _ (Json.mem_of_lookup hraw) raw'.toList)
  · exact hpair _ (Json.mem_of_lookup hraw) _ (Json.mem_of_lookup hraw') h

theorem sampleDigest_fileName : FileName sampleDigest := by
  intro raw hslash
  unfold sampleDigest at hslash
  rcases hraw : knownDigests.lookup raw with _ | d
  · rw [hraw, Option.getD_none, String.toList_ofList, List.mem_flatMap] at hslash
    obtain ⟨c, -, hc⟩ := hslash
    unfold escape at hc
    split_ifs at hc with h
    · revert hc
      decide
    · simp [Ne.symm h] at hc
  · rw [hraw, Option.getD_some] at hslash
    have hall : ∀ p ∈ knownDigests, '/' ∉ p.2.toList := by decide
    exact hall (raw, d) (Json.mem_of_lookup hraw) hslash

/-- A repository of the control plane `https://cp.test` with its snapshots in one directory. -/
def repositoryOf (projectId tenantId : String) : HttpContractRepository where
  config :=
    { baseUrl := "https://cp.test", projectId := some projectId, tenantId := some tenantId
      snapshotDir := some "/var/cache/congine" }
  environment := { home := "/root" }

/-- Two tenants of a project, with no separator in their names. -/
def namedTenants (second : Bool) : HttpContractRepository :=
  repositoryOf "proj" (if second then "tenant-B" else "tenant-A")

/-- The separator stands once in the project, once in the tenant. -/
def collidingTenants (second : Bool) : HttpContractRepository :=
  if second then repositoryOf "a" "b|c" else repositoryOf "a|b" "c"

theorem snapshots_isolated_tenants :
    ((∀ r r', (namedTenants r).scope ≠ (namedTenants r').scope →
        (namedTenants r).snapshotPath sampleDigest ≠ (namedTenants r').snapshotPath sampleDigest) ∧
      ∀ disk : Disk String, (∀ file, (disk file).savedIn = none) → ∀ es,
        Along (diskStep sampleDigest id namedTenants) (Isolated sampleDigest id namedTenants)
          es disk) :=
  (snapshots_isolated_iff sampleDigest_injective sampleDigest_fileName).mpr (by decide +kernel)

/-- **Two tenants share a snapshot**: their paths are one, and the second
loads what the first has saved. -/
theorem snapshots_shared :
    Function.Injective sampleDigest ∧
      (collidingTenants false).scope ≠ (collidingTenants true).scope ∧
      (collidingTenants false).snapshotPath sampleDigest =
        (collidingTenants true).snapshotPath sampleDigest ∧
      ¬ Along (diskStep sampleDigest id collidingTenants)
          (Isolated sampleDigest id collidingTenants)
          [.save false [.obj [("id", .str "orders")]] "2026-01-01T00:00:00+00:00" .written,
            .load true]
          fun _ => ⟨SnapshotFile.absent, none⟩ := by
  have hscope : (collidingTenants false).scope ≠ (collidingTenants true).scope := by
    decide +kernel
  refine ⟨sampleDigest_injective, hscope, by decide +kernel, fun hrun => hscope ?_⟩
  exact scope_eq_of_isolated (by decide +kernel) (by simp) (by simp [Json.isObj]) hrun

end Congine
